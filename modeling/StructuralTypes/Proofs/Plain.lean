import StructuralTypes.Proofs.Members

namespace StructuralTypes

namespace Ty

/-- Neither "any" nor an object with optional fields or an index rule. -/
def Plain : Ty → Prop
  | .primitive name => name ≠ "any"
  | .object fields index => (∀ f ∈ fields, f.2.optional = false) ∧ index.isNone = true
  | .mapped entries => ∀ e ∈ entries, e.2.optional = false
  | _ => True

instance (t : Ty) : Decidable t.Plain :=
  match t with
  | .primitive _ => inferInstanceAs (Decidable (_ ≠ _))
  | .object _ _ => inferInstanceAs (Decidable (_ ∧ _))
  | .mapped _ => inferInstanceAs (Decidable (∀ e ∈ _, _))
  | .literal _ => inferInstanceAs (Decidable True)
  | .array _ _ => inferInstanceAs (Decidable True)
  | .tuple _ => inferInstanceAs (Decidable True)
  | .union _ => inferInstanceAs (Decidable True)
  | .named _ => inferInstanceAs (Decidable True)
  | .foreign _ => inferInstanceAs (Decidable True)

theorem optional_of_misplacedPosition? {k : Nat} {elements : List (Slot Ty)}
    (h : misplacedPosition? true k elements = none) : ∀ e ∈ elements, e.optional = true := by
  induction elements generalizing k with
  | nil => simp
  | cons e rest ih =>
      unfold misplacedPosition? at h
      split at h
      · rename_i hoptional
        exact List.forall_mem_cons.mpr ⟨hoptional, ih h⟩
      · cases h

theorem optional_iff_of_misplacedPosition? {k i : Nat} {elements : List (Slot Ty)}
    (h : misplacedPosition? false k elements = none) (hi : i < elements.length) :
    elements[i].optional = true ↔ requiredCount elements ≤ i := by
  induction elements generalizing k i with
  | nil => simp at hi
  | cons e rest ih =>
      unfold misplacedPosition? at h
      split at h
      · rename_i hoptional
        have hall : ∀ e' ∈ e :: rest, e'.optional = true :=
          List.forall_mem_cons.mpr ⟨hoptional, optional_of_misplacedPosition? h⟩
        have hcount : requiredCount (e :: rest) = 0 := by
          rw [requiredCount, List.countP_eq_zero]
          simpa using hall
        rw [hcount]
        simpa using hall _ (List.getElem_mem hi)
      · rename_i hrequired
        have hcount : requiredCount (e :: rest) = requiredCount rest + 1 := by
          simp [requiredCount, hrequired]
        rw [if_neg Bool.false_ne_true] at h
        cases i with
        | zero => simpa [hcount] using hrequired
        | succ i =>
            rw [hcount, Nat.add_le_add_iff_right, List.getElem_cons_succ]
            exact ih h (by simpa using hi)

/-- The optional positions of a tuple are those after the required ones. -/
theorem WellFormed.optional_iff {elements : List (Slot Ty)} (h : (Ty.tuple elements).WellFormed)
    {i : Nat} (hi : i < elements.length) :
    elements[i].optional = true ↔ requiredCount elements ≤ i :=
  optional_iff_of_misplacedPosition? h.wellMade hi

end Ty

namespace Assignability

theorem exists_mem_zip_middle {α β γ : Type} {l : List α} {m : List β} {r : List γ}
    (h : l.length ≤ m.length) {p : α × γ} (hp : p ∈ l.zip r) :
    ∃ b, (p.1, b) ∈ l.zip m ∧ (b, p.2) ∈ m.zip r := by
  induction l generalizing m r with
  | nil => simp at hp
  | cons a l ih =>
      cases m with
      | nil => simp at h
      | cons b m =>
          cases r with
          | nil => simp at hp
          | cons c r =>
              rw [List.zip_cons_cons, List.mem_cons] at hp
              rcases hp with rfl | hp
              · exact ⟨b, by simp, by simp⟩
              · obtain ⟨b', hb, hb'⟩ := ih (Nat.le_of_succ_le_succ h) hp
                exact ⟨b', List.mem_cons_of_mem _ hb, List.mem_cons_of_mem _ hb'⟩

theorem requiredCount_le_leastLength (policy : Policy) (elements : List (Slot Ty)) :
    Ty.requiredCount elements ≤ leastLength policy elements := by
  unfold leastLength
  split
  · exact le_rfl
  · exact List.countP_le_length

theorem requiredCount_le_of_fits {policy : Policy} {R : Ty → Ty → Prop}
    {elements elements' : List (Slot Ty)} (hwf : (Ty.tuple elements).WellFormed)
    (hwf' : (Ty.tuple elements').WellFormed)
    (least : leastLength policy elements' ≤ elements.length)
    (most : elements.length ≤ elements'.length)
    (h : ∀ p ∈ elements.zip elements', SlotFits R p.1 p.2) :
    Ty.requiredCount elements' ≤ Ty.requiredCount elements := by
  by_contra hlt
  have hle := requiredCount_le_leastLength policy elements'
  have hi : Ty.requiredCount elements < elements.length := by omega
  have hi' : Ty.requiredCount elements < elements'.length := by omega
  -- the first optional position of the source is optional in the target as well
  have hoptional := (hwf.optional_iff hi).mpr le_rfl
  have hmem : (elements[Ty.requiredCount elements], elements'[Ty.requiredCount elements]) ∈
      elements.zip elements' := by
    rw [List.mem_iff_getElem]
    exact ⟨Ty.requiredCount elements, by simp [hi, hi'], by simp⟩
  have hoptional' := (hwf'.optional_iff hi').mp ((h _ hmem).2.1 hoptional)
  omega

section Reachable

variable {d : Declarations} {s t u w : Ty}

theorem Reachable.trans (h : Reachable d s t u) (h' : Reachable d u u w) :
    Reachable d s t w := by
  induction h' with
  | source => exact h
  | target => exact h
  | part _ hp ih => exact .part ih hp
  | expanded _ ih => exact .expanded ih
  | declared _ hu ih => exact .declared ih hu

end Reachable

end Assignability

namespace Declarations

/-- Every type that is reached from a type is plain. -/
def PlainWithin (d : Declarations) (t : Ty) : Prop :=
  ∀ u, Assignability.Reachable d t t u → u.Plain

/-- A well-formed type from which plain types only are reached. -/
structure Regular (d : Declarations) (t : Ty) : Prop where
  wellFormed : t.WellFormed
  plain : d.PlainWithin t

variable {d : Declarations} {t m x : Ty}

theorem PlainWithin.of_reachable {u : Ty} (h : d.PlainWithin t)
    (hu : Assignability.Reachable d t t u) : d.PlainWithin u :=
  fun w hw => h w (hu.trans hw)

theorem PlainWithin.of_pool (h : ∀ u ∈ Assignability.pool d t t, u.Plain) : d.PlainWithin t :=
  fun u hu => h u hu.mem_pool

theorem Regular.part (h : d.Regular t) (hm : m ∈ t.parts) : d.Regular m :=
  ⟨h.wellFormed.part hm, h.plain.of_reachable (.part .source hm)⟩

theorem Regular.self_or_part (h : d.Regular t) (hm : m = t ∨ m ∈ t.parts) : d.Regular m := by
  rcases hm with rfl | hm
  · exact h
  · exact h.part hm

theorem Regular.resolve (hd : d.WellFormed) (h : d.Regular t) {t' : Ty}
    (ht' : d.resolve t = .ok t') : d.Regular t' :=
  ⟨hd.resolve h.wellFormed ht', h.plain.of_reachable (Assignability.Reachable.source.resolve ht')⟩

theorem Regular.standsFor (hd : d.WellFormed) (h : d.Regular t) (hx : d.StandsFor t x) :
    d.Regular x := by
  obtain ⟨t', ht', -, rfl⟩ := hx
  have h' := h.resolve hd ht'
  exact ⟨h'.wellFormed.expanded, h'.plain.of_reachable (.expanded .source)⟩

theorem Regular.member (hd : d.WellFormed) (h : d.Regular t) (hm : d.HasMember t m) :
    d.Regular m :=
  ⟨hm.wellFormed hd h.wellFormed, h.plain.of_reachable (hm.reachable .source)⟩

theorem Regular.self_plain (h : d.Regular t) : t.Plain :=
  h.plain t .source

theorem Regular.ne_any (h : d.Regular t) : t ≠ .primitive "any" := by
  rintro rfl
  exact h.self_plain rfl

end Declarations

end StructuralTypes
