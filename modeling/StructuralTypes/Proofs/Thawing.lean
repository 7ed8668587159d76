import StructuralTypes.Proofs.Transparency
import StructuralTypes.Ty.Readonly

namespace StructuralTypes

namespace Slot

/-- The slot without its readonly flag, its type mapped. -/
def clear (f : Ty → Ty) (s : Slot Ty) : Slot Ty :=
  ⟨f s.type, false, s.optional⟩

end Slot

namespace IndexRule

/-- The index rule without its readonly flag, its value mapped. -/
def clear (f : Ty → Ty) (r : IndexRule Ty) : IndexRule Ty :=
  ⟨r.key, f r.value, false⟩

end IndexRule

namespace Ty

section Level

variable {f g : Ty → Ty}

def clearFields (f : Ty → Ty) (fields : List (String × Slot Ty)) : List (String × Slot Ty) :=
  fields.map fun field => (field.1, field.2.clear f)

/-- The type without the readonly flags of its outermost level. Members of unions are mapped by `g`,
all other parts by `f`. -/
def clear (f g : Ty → Ty) : Ty → Ty
  | .object fields index => .object (clearFields f fields) (index.map (IndexRule.clear f))
  | .array element _ => .array (f element) false
  | .tuple elements => .tuple (elements.map (Slot.clear f))
  | .union members => .union (distinct (members.map g))
  | .mapped entries => .mapped (clearFields f entries)
  | t => t

@[simp]
theorem names_clearFields (fields : List (String × Slot Ty)) :
    Assoc.names (clearFields f fields) = Assoc.names fields := by
  simp [Assoc.names, clearFields]

theorem lookup_clearFields (fields : List (String × Slot Ty)) (name : String) :
    (clearFields f fields).lookup name = (fields.lookup name).map (Slot.clear f) := by
  induction fields with
  | nil => rfl
  | cons field rest ih =>
      obtain ⟨n, s⟩ := field
      simp only [clearFields, List.map_cons, List.lookup_cons] at ih ⊢
      cases name == n with
      | true => rfl
      | false => exact ih

theorem misplacedPosition?_clear (elements : List (Slot Ty)) (seen : Bool) (k : Nat) :
    misplacedPosition? seen k (elements.map (Slot.clear f)) =
      misplacedPosition? seen k elements := by
  induction elements generalizing seen k with
  | nil => rfl
  | cons s rest ih => simp only [List.map_cons, misplacedPosition?, Slot.clear, ih]

theorem foreign?_clear (t : Ty) : (clear f g t).foreign? = t.foreign? := by
  cases t <;> rfl

theorem isNamed_clear (t : Ty) : (clear f g t).isNamed = t.isNamed := by
  cases t <;> rfl

theorem expanded_clear (t : Ty) : (clear f g t).expanded = clear f g t.expanded := by
  cases t <;> rfl

/-- A union stays well formed when its members are mapped to native types and equal ones fall
together. -/
theorem WellFormed.distinct_map {members : List Ty} (h : (union members).WellFormed)
    (hg : ∀ m ∈ members, (g m).WellFormed ∧ (g m).foreign? = m.foreign?) :
    (union (distinct (members.map g))).WellFormed := by
  obtain ⟨hne, hnative, -⟩ := h.wellMade
  have hbuilt : buildUnion (members.map g) = .ok (.union (distinct (members.map g))) := by
    refine buildUnion_of_native (by simpa using hne) fun m hm => ?_
    obtain ⟨m', hm', rfl⟩ := List.mem_map.mp hm
    exact (hg m' hm').2.trans (hnative m' hm')
  refine wellFormed_of_buildUnion (fun m hm => ?_) hbuilt
  obtain ⟨m', hm', rfl⟩ := List.mem_map.mp hm
  exact (hg m' hm').1

theorem WellFormed.clear {t : Ty} (h : t.WellFormed)
    (hf : ∀ p ∈ t.parts, (f p).WellFormed ∧ (f p).foreign? = p.foreign?)
    (hg : ∀ p ∈ t.parts, (g p).WellFormed ∧ (g p).foreign? = p.foreign?) :
    (clear f g t).WellFormed := by
  cases t with
  | object fields index =>
      refine wellFormed_object ?_ (fun field hfield => ?_) fun r hr => ?_
      · rw [names_clearFields]
        exact h.names_nodup
      · obtain ⟨field', hfield', rfl⟩ := List.mem_map.mp hfield
        exact (hf _ (mem_parts_of_mem_fields hfield')).1
      · obtain ⟨r', rfl, rfl⟩ := Option.map_eq_some_iff.mp hr
        exact ⟨h.wellMade.2, h.part key_mem_parts, (hf _ value_mem_parts).1⟩
  | array element readonly =>
      refine wellFormed_iff.mpr ⟨trivial, fun p hp => ?_⟩
      rw [List.mem_singleton.mp hp]
      exact (hf element (by simp [parts])).1
  | tuple elements =>
      refine wellFormed_iff.mpr ⟨(misplacedPosition?_clear _ _ _).trans h.wellMade, fun p hp => ?_⟩
      obtain ⟨s, hs, rfl⟩ := List.mem_map.mp hp
      obtain ⟨s', hs', rfl⟩ := List.mem_map.mp hs
      exact (hf _ (List.mem_map_of_mem hs')).1
  | union members => exact h.distinct_map hg
  | mapped entries =>
      refine wellFormed_iff.mpr ⟨⟨?_, fun e he => ?_⟩, fun p hp => ?_⟩
      · rw [names_clearFields]
        exact h.wellMade.1
      · obtain ⟨e', he', rfl⟩ := List.mem_map.mp he
        exact (hf _ (mem_parts_of_mem_entries he')).2.trans (h.wellMade.2 e' he')
      · obtain ⟨e, he, rfl⟩ := List.mem_map.mp hp
        obtain ⟨e', he', rfl⟩ := List.mem_map.mp he
        exact (hf _ (mem_parts_of_mem_entries he')).1
  | _ => exact h

theorem loosened_clear {E : Ty → Ty → Prop} {x : Ty} (hf : ∀ p, E p (f p)) (hg : ∀ p, E p (g p))
    (hnamed : x.isNamed = false) (hforeign : x.foreign? = none)
    (hmapped : ∀ entries, x ≠ .mapped entries) : Loosened E x (clear f g x) := by
  have hslot : ∀ s : Slot Ty, s.Loosened E (s.clear f) := fun s => ⟨hf s.type, nofun, rfl⟩
  cases x with
  | primitive name => exact .primitive name
  | literal l => exact .literal (Literal.same_refl l)
  | object fields index =>
      refine .object (fun name => ?_) ?_
      · rw [lookup_clearFields]
        cases fields.lookup name with
        | none => exact .none
        | some s => exact .some (hslot s)
      · cases index with
        | none => exact .none
        | some r => exact .some ⟨.refl _, hf r.value, nofun⟩
  | array element readonly => exact .array nofun (hf element)
  | tuple elements =>
      exact .tuple (List.forall₂_map_right_iff.mpr (List.forall₂_same.mpr fun s _ => hslot s))
  | union members =>
      refine .union fun m' hm' => ?_
      obtain ⟨m, hm, rfl⟩ := List.mem_map.mp (mem_of_mem_distinct hm')
      exact ⟨m, hm, hg m⟩
  | mapped entries => exact absurd rfl (hmapped entries)
  | named name => cases hnamed
  | foreign v => cases hforeign

end Level

section Instances

theorem thawedFields_eq (fields : List (String × Slot Ty)) :
    thawedFields fields = clearFields thawed fields := by
  induction fields with
  | nil => rfl
  | cons field rest ih => simp [thawedFields, clearFields, Slot.clear, ih]

theorem thawedSlots_eq (elements : List (Slot Ty)) :
    thawedSlots elements = elements.map (Slot.clear thawed) := by
  induction elements with
  | nil => rfl
  | cons s rest ih => simp [thawedSlots, Slot.clear, ih]

theorem thawedMembers_eq (members : List Ty) : thawedMembers members = members.map thawed := by
  induction members with
  | nil => rfl
  | cons m rest ih => simp [thawedMembers, ih]

theorem copiedMembers_eq (members : List Ty) : copiedMembers members = members.map copied := by
  induction members with
  | nil => rfl
  | cons m rest ih => simp [copiedMembers, ih]

theorem thawed_eq (t : Ty) : t.thawed = clear thawed thawed t := by
  cases t with
  | object fields index =>
      cases index with
      | none => simp [thawed, clear, thawedFields_eq, thawedIndex]
      | some r => simp [thawed, clear, thawedFields_eq, thawedIndex, IndexRule.clear]
  | tuple elements => simp [thawed, clear, thawedSlots_eq]
  | union members => simp [thawed, clear, thawedMembers_eq]
  | mapped entries => simp [thawed, clear, thawedFields_eq]
  | _ => simp [thawed, clear]

theorem copied_eq (t : Ty) : t.copied = clear id copied t.expanded := by
  cases t with
  | union members => simp [copied, clear, expanded, copiedMembers_eq]
  | _ => rfl

theorem foreign?_thawed (t : Ty) : t.thawed.foreign? = t.foreign? := by
  rw [thawed_eq, foreign?_clear]

theorem foreign?_copied (t : Ty) : t.copied.foreign? = t.foreign? := by
  rw [copied_eq, foreign?_clear, foreign?_expanded]

theorem WellFormed.thawed {t : Ty} (h : t.WellFormed) : t.thawed.WellFormed := by
  induction t using parts_induction with
  | step t ih =>
      rw [thawed_eq]
      have hparts : ∀ p ∈ t.parts, p.thawed.WellFormed ∧ p.thawed.foreign? = p.foreign? :=
        fun p hp => ⟨ih p hp (h.part hp), foreign?_thawed p⟩
      exact h.clear hparts hparts

theorem WellFormed.copied {t : Ty} (h : t.WellFormed) : t.copied.WellFormed := by
  induction t using parts_induction with
  | step t ih =>
      rw [copied_eq]
      refine h.expanded.clear (fun p hp => ⟨h.expanded.part hp, rfl⟩) fun p hp => ?_
      rw [parts_expanded] at hp
      exact ⟨ih p hp (h.part hp), foreign?_copied p⟩

end Instances

end Ty

namespace Assignability

open Declarations

/-- A type as it is, or with readonly flags cleared in one of the two ways. -/
inductive Freed (s : Ty) : Ty → Prop
  | kept : Freed s s
  | thawed : Freed s s.thawed
  | copied : Freed s s.copied

section Freed

variable {s s' : Ty}

theorem Freed.wellFormed (h : Freed s s') (hs : s.WellFormed) : s'.WellFormed := by
  cases h with
  | kept => exact hs
  | thawed => exact hs.thawed
  | copied => exact hs.copied

theorem Freed.foreign?_eq (h : Freed s s') : s'.foreign? = s.foreign? := by
  cases h with
  | kept => rfl
  | thawed => exact Ty.foreign?_thawed s
  | copied => exact Ty.foreign?_copied s

theorem Freed.isNamed_eq (h : Freed s s') : s'.isNamed = s.isNamed := by
  cases h with
  | kept => rfl
  | thawed => rw [Ty.thawed_eq, Ty.isNamed_clear]
  | copied => rw [Ty.copied_eq, Ty.isNamed_clear, Ty.isNamed_expanded]

theorem Freed.expanded (h : Freed s s') : Freed s.expanded s'.expanded := by
  cases h with
  | kept => exact .kept
  | thawed =>
      rw [Ty.thawed_eq, Ty.expanded_clear, ← Ty.thawed_eq]
      exact .thawed
  | copied =>
      rw [Ty.copied_eq, Ty.expanded_clear, ← Ty.copied_eq]
      exact .copied

theorem Freed.resolve {d : Declarations} {r' : Ty} (h : Freed s s') (hr' : d.resolve s' = .ok r') :
    ∃ r, d.resolve s = .ok r ∧ Freed r r' := by
  cases hnamed : s.isNamed with
  | true =>
      have hsame : s' = s := by
        cases s with
        | named name => cases h <;> rfl
        | _ => cases hnamed
      exact ⟨r', hsame ▸ hr', .kept⟩
  | false =>
      rw [resolve_of_not_named (h.isNamed_eq.trans hnamed)] at hr'
      cases hr'
      exact ⟨s, resolve_of_not_named hnamed, h⟩

theorem Freed.loosened (h : Freed s s') (hnamed : s.isNamed = false)
    (hforeign : s.foreign? = none) : Ty.Loosened Freed s.expanded s'.expanded := by
  have hnamed' : s.expanded.isNamed = false := by rw [Ty.isNamed_expanded, hnamed]
  have hforeign' : s.expanded.foreign? = none := by rw [Ty.foreign?_expanded, hforeign]
  cases h with
  | kept =>
      exact (Ty.corresponds_refl (fun _ => .kept) hnamed' hforeign' s.expanded_ne_mapped).loosened
  | thawed =>
      rw [Ty.thawed_eq, Ty.expanded_clear]
      exact Ty.loosened_clear (fun _ => .thawed) (fun _ => .thawed) hnamed' hforeign'
        s.expanded_ne_mapped
  | copied =>
      rw [Ty.copied_eq, Ty.expanded_clear, Ty.expanded_expanded]
      exact Ty.loosened_clear (fun _ => .kept) (fun _ => .copied) hnamed' hforeign'
        s.expanded_ne_mapped

end Freed

section Check

variable {setting : Setting} {s s' t : Ty}

/-- A freed source of transported types. -/
def FreedTransported (setting : Setting) (s' t : Ty) : Prop :=
  ∃ s, Freed s s' ∧ Transported setting s t

theorem carries_freed : Carries Freed Eq (Transported setting) (FreedTransported setting) := by
  rintro a a' b b' haa rfl h
  exact ⟨a, haa, h⟩

theorem tolerant_freed (hd : setting.declarations.WellFormed) :
    Tolerant setting (FreedTransported setting) := by
  rintro s' t ⟨s, hfreed, h⟩ hfs' hft
  have hfs : s.foreign? = none := hfreed.foreign?_eq.symm.trans hfs'
  obtain ⟨hs, ht⟩ := h.wellFormed
  obtain ⟨hresolve, hfits⟩ := upheld_transported hd s t h hfs hft
  constructor
  · intro hnamed r' q hr' hq
    obtain ⟨r, hr, hrr⟩ := hfreed.resolve hr'
    rw [hfreed.isNamed_eq] at hnamed
    exact ⟨r, hrr, hresolve hnamed r q hr hq⟩
  · intro hsn htn
    rw [hfreed.isNamed_eq] at hsn
    have htarget : Ty.Corresponds Eq t.expanded t.expanded := by
      refine Ty.corresponds_refl (fun _ => rfl) ?_ ?_ t.expanded_ne_mapped
      · rw [Ty.isNamed_expanded, htn]
      · rw [Ty.foreign?_expanded, hft]
    exact ((hfits hsn htn).transfer carries_freed (hfreed.wellFormed hs).expanded ht.expanded
      hfreed.expanded rfl (hfreed.loosened hsn hfs) htarget).fits

theorem isAccepted_of_freed (hd : setting.declarations.WellFormed) (hs : s.WellFormed)
    (ht : t.WellFormed) (hfreed : Freed s s') (h : Transported setting s t) {v : Verdict}
    (h' : Judged setting s' t v) : v.isAccepted = true :=
  (tolerant_freed hd).isAccepted_of_judged hd (hfreed.wellFormed hs) ht ⟨s, hfreed, h⟩ h'

theorem freed_of_thaw (h : s.thaw = .ok s') : Freed s s' := by
  unfold Ty.thaw at h
  split at h
  · cases h
  · cases h
    exact .thawed

theorem freed_of_copy (h : s.copy = .ok s') : Freed s s' := by
  unfold Ty.copy at h
  split at h
  · cases h
  · cases h
    exact .copied

/-- A source that is accepted is accepted without its readonly flags and as a copy, where no union
has "unknown" as a member. -/
theorem check_freed (hd : setting.declarations.WellFormed) (hs : s.WellFormed)
    (ht : t.WellFormed) (hknown : setting.declarations.Known t) {v : Verdict}
    (h : Judged setting s t v) (hv : v.isAccepted = true) :
    (∀ s' v', s.thaw = .ok s' → Judged setting s' t v' → v'.isAccepted = true) ∧
      ∀ s' v', s.copy = .ok s' → Judged setting s' t v' → v'.isAccepted = true := by
  have htransported := (h.isAccepted_iff_transported hd hs ht hknown).mp hv
  constructor
  · intro s' v' hthaw h'
    exact isAccepted_of_freed hd hs ht (freed_of_thaw hthaw) htransported h'
  · intro s' v' hcopy h'
    exact isAccepted_of_freed hd hs ht (freed_of_copy hcopy) htransported h'

def chronicle : Declarations :=
  .ofList [("Entry", .object [("text", ⟨.string, true, false⟩),
    ("next", ⟨.named "Entry", true, true⟩)] none)]

/-- Pages of entries, frozen at both levels or at one, and an index of them. -/
def pages : Ty :=
  .union [
    .array (.array (.named "Entry") true) true,
    .array (.array (.named "Entry") true) false,
    .mapped [("last", ⟨.tuple [⟨.named "Entry", true, false⟩], true, true⟩)]]

theorem check_freed_pages :
    ∃ s s' v v', pages.thaw = .ok s ∧ pages.copy = .ok s' ∧ (s == pages) = false ∧
      (s' == pages) = false ∧ (s == s') = false ∧
      Setting.check ⟨{}, chronicle⟩ s pages = .ok v ∧
      Setting.check ⟨{}, chronicle⟩ s' pages = .ok v' ∧
      v.isAccepted = true ∧ v'.isAccepted = true := by
  have hd : (Setting.mk {} chronicle).declarations.WellFormed := by decide
  have hself : Judged ⟨{}, chronicle⟩ pages pages .accepted := Or.inr ⟨rfl, rfl⟩
  obtain ⟨hthaw, hcopy⟩ := check_freed hd (by decide) (by decide) (known_of_pool (by decide)) hself
    rfl
  have hv : ∃ v, Setting.check ⟨{}, chronicle⟩ pages.thawed pages = .ok v := ⟨_, rfl⟩
  have hv' : ∃ v, Setting.check ⟨{}, chronicle⟩ pages.copied pages = .ok v := ⟨_, rfl⟩
  obtain ⟨v, hv⟩ := hv
  obtain ⟨v', hv'⟩ := hv'
  exact ⟨pages.thawed, pages.copied, v, v', rfl, rfl, by decide, by decide, by decide, hv, hv',
    hthaw _ v rfl (Or.inl hv), hcopy _ v' rfl (Or.inl hv')⟩

end Check

end Assignability

end StructuralTypes
