import StructuralTypes.Proofs.Thawing

namespace StructuralTypes

theorem Slot.Alike.clear {f : Ty → Ty} {a b : Slot Ty} (h : a.Alike b)
    (hf : f a.type == f b.type) : (a.clear f).Alike (b.clear f) :=
  ⟨hf, rfl, h.optional⟩

namespace Ty

section Distinct

variable {f g : Ty → Ty}

theorem filter_distinct_map_filter {m : Ty} {members : List Ty}
    (hf : ∀ x ∈ members, m == x → f m == f x) :
    (distinct ((members.filter fun x => !(m == x)).map f)).filter (fun y => !(f m == y)) =
      (distinct (members.map f)).filter fun y => !(f m == y) := by
  induction members with
  | nil => rfl
  | cons x rest ih =>
      rw [List.forall_mem_cons] at hf
      have ih := ih hf.2
      cases hx : m == x with
      | true =>
          have himage : f m == f x := hf.1 hx
          -- What `f x` drops is dropped for `f m`.
          have hdropped : ∀ y, (!(f m == y) && !(f x == y)) = !(f m == y) := by
            intro y
            cases hy : f x == y with
            | true => simp [beq_trans himage hy]
            | false => simp
          rw [List.filter_cons_of_neg (by simp [hx]), ih, List.map_cons, distinct,
            List.filter_cons_of_neg (by simp [himage]), List.filter_filter]
          simp only [hdropped]
      | false =>
          rw [List.filter_cons_of_pos (by simp [hx]), List.map_cons, List.map_cons, distinct,
            distinct, List.filter_cons, List.filter_cons, List.filter_comm, ih,
            List.filter_comm]

/-- Equal members may be dropped before a map that respects equality, or after it only. -/
theorem distinct_map_distinct {members : List Ty} (hwf : ∀ m ∈ members, m.WellFormed)
    (hf : ∀ {x y : Ty}, x.WellFormed → y.WellFormed → x == y → f x == f y) :
    distinct ((distinct members).map f) = distinct (members.map f) := by
  induction members with
  | nil => rfl
  | cons m rest ih =>
      rw [List.forall_mem_cons] at hwf
      have hm : ∀ x ∈ distinct rest, m == x → f m == f x := fun x hx =>
        hf hwf.1 (hwf.2 x (mem_of_mem_distinct hx))
      rw [distinct, List.map_cons, List.map_cons, distinct, distinct,
        filter_distinct_map_filter hm, ih hwf.2]

theorem union_distinct_map_beq {members members' : List Ty}
    (hwf : ∀ m ∈ members, (g m).WellFormed) (hwf' : ∀ m ∈ members', (g m).WellFormed)
    (hg : ∀ m ∈ members, ∀ m' ∈ members', m == m' → g m == g m')
    (h : union members == union members') :
    union (distinct (members.map g)) == union (distinct (members'.map g)) := by
  have hkept : ∀ {ms : List Ty}, (∀ m ∈ ms, (g m).WellFormed) → ∀ m ∈ ms,
      ∃ k ∈ distinct (ms.map g), k.WellFormed ∧ k == g m := by
    intro ms hms m hm
    have hmap : ∀ x ∈ ms.map g, x.WellFormed := List.forall_mem_map.mpr hms
    obtain ⟨k, hk, hkm⟩ := exists_mem_distinct hmap (List.mem_map_of_mem hm)
    exact ⟨k, hk, hmap k (mem_of_mem_distinct hk), hkm⟩
  cases alike_of_beq h with
  | union forth back =>
      refine (Alike.union (fun k hk => ?_) fun k' hk' => ?_).beq
      · obtain ⟨m, hm, rfl⟩ := List.mem_map.mp (mem_of_mem_distinct hk)
        obtain ⟨m', hm', hmm⟩ := forth m hm
        obtain ⟨k', hk', hwk', hkm⟩ := hkept hwf' m' hm'
        exact ⟨k', hk', beq_trans (hg m hm m' hm' hmm) (beq_symm hwk' (hwf' m' hm') hkm)⟩
      · obtain ⟨m', hm', rfl⟩ := List.mem_map.mp (mem_of_mem_distinct hk')
        obtain ⟨m, hm, hmm⟩ := back m' hm'
        obtain ⟨k, hk, -, hkm⟩ := hkept hwf m hm
        exact ⟨k, hk, beq_trans hkm (hg m hm m' hm' hmm)⟩

end Distinct

section Level

variable {f g : Ty → Ty} {s t p : Ty}

theorem length_clearFields (fields : List (String × Slot Ty)) :
    (clearFields f fields).length = fields.length :=
  List.length_map _

theorem FieldsAlike.clear {fields fields' : List (String × Slot Ty)}
    (h : FieldsAlike fields fields')
    (hf : ∀ e ∈ fields, ∀ e' ∈ fields', e.2.type == e'.2.type → f e.2.type == f e'.2.type) :
    FieldsAlike (clearFields f fields) (clearFields f fields') := by
  intro name a ha
  obtain ⟨⟨n, a'⟩, ha', heq⟩ := List.mem_map.mp ha
  cases heq
  obtain ⟨b, hb, hab⟩ := h n a' ha'
  refine ⟨b.clear f, by rw [lookup_clearFields, hb, Option.map_some], ?_⟩
  exact hab.clear (hf _ ha' _ (Assoc.mem_of_lookup hb) hab.type)

theorem clear_beq (hwf : ∀ p ∈ s.parts, (g p).WellFormed) (hwf' : ∀ q ∈ t.parts, (g q).WellFormed)
    (hf : ∀ p ∈ s.parts, ∀ q ∈ t.parts, p == q → f p == f q)
    (hg : ∀ p ∈ s.parts, ∀ q ∈ t.parts, p == q → g p == g q) (h : s == t) :
    clear f g s == clear f g t := by
  cases alike_of_beq h with
  | object length fieldsAlike indexAlike =>
      refine (Alike.object ?_ (fieldsAlike.clear fun e he e' he' => ?_) ?_).beq
      · rw [length_clearFields, length_clearFields, length]
      · exact hf _ (mem_parts_of_mem_fields he) _ (mem_parts_of_mem_fields he')
      · cases indexAlike with
        | none => exact .none
        | some halike =>
            exact .some ⟨halike.key, hf _ value_mem_parts _ value_mem_parts halike.value, rfl⟩
  | array readonly helement =>
      exact (Alike.array false (hf _ (by simp [parts]) _ (by simp [parts]) helement)).beq
  | tuple hslots =>
      refine (Alike.tuple ?_).beq
      rw [List.forall₂_map_left_iff, List.forall₂_map_right_iff]
      refine List.forall₂_iff_get.mpr ⟨hslots.length_eq, fun i hi hi' => ?_⟩
      have halike := (List.forall₂_iff_get.mp hslots).2 i hi hi'
      refine halike.clear (hf _ ?_ _ ?_ halike.type)
      · exact List.mem_map_of_mem (List.get_mem _ _)
      · exact List.mem_map_of_mem (List.get_mem _ _)
  | union forth back => exact union_distinct_map_beq hwf hwf' hg h
  | mapped length fieldsAlike =>
      refine (Alike.mapped ?_ (fieldsAlike.clear fun e he e' he' => ?_)).beq
      · rw [length_clearFields, length_clearFields, length]
      · exact hf _ (mem_parts_of_mem_entries he) _ (mem_parts_of_mem_entries he')
  | primitive name => exact h
  | literal hsame => exact h
  | named name => exact h
  | foreign hsame => exact h

theorem mem_parts_clear (hp : p ∈ (clear f g t).parts) :
    (p ∈ t.parts ∧ ∃ fields r, t = .object fields (some r) ∧ p = r.key) ∨
      ∃ q ∈ t.parts, p = f q ∨ p = g q := by
  have hfields : ∀ {fields : List (String × Slot Ty)},
      p ∈ (clearFields f fields).map (fun e => e.2.type) → ∃ e ∈ fields, p = f e.2.type := by
    intro fields hp
    obtain ⟨e, he, rfl⟩ := List.mem_map.mp hp
    obtain ⟨e', he', rfl⟩ := List.mem_map.mp he
    exact ⟨e', he', rfl⟩
  cases t with
  | object fields index =>
      rcases List.mem_append.mp hp with hp | hp
      · obtain ⟨e, he, rfl⟩ := hfields hp
        exact Or.inr ⟨_, mem_parts_of_mem_fields he, Or.inl rfl⟩
      · cases index with
        | none => cases hp
        | some r =>
            have hp' : p = r.key ∨ p = f r.value := by simpa [IndexRule.clear] using hp
            rcases hp' with rfl | rfl
            · exact Or.inl ⟨key_mem_parts, fields, r, rfl, rfl⟩
            · exact Or.inr ⟨_, value_mem_parts, Or.inl rfl⟩
  | array element readonly =>
      exact Or.inr ⟨element, by simp [parts], Or.inl (List.mem_singleton.mp hp)⟩
  | tuple elements =>
      obtain ⟨a, ha, rfl⟩ := List.mem_map.mp hp
      obtain ⟨b, hb, rfl⟩ := List.mem_map.mp ha
      exact Or.inr ⟨_, List.mem_map_of_mem hb, Or.inl rfl⟩
  | union members =>
      obtain ⟨m, hm, rfl⟩ := List.mem_map.mp (mem_of_mem_distinct hp)
      exact Or.inr ⟨m, hm, Or.inr rfl⟩
  | mapped entries =>
      obtain ⟨e, he, rfl⟩ := hfields hp
      exact Or.inr ⟨_, mem_parts_of_mem_entries he, Or.inl rfl⟩
  | _ => cases hp

end Level

section Equality

variable {s t : Ty}

theorem thawed_beq (hs : s.WellFormed) (ht : t.WellFormed) (h : s == t) :
    s.thawed == t.thawed := by
  induction s using parts_induction generalizing t with
  | step s ih =>
      have hparts : ∀ p ∈ s.parts, ∀ q ∈ t.parts, p == q → p.thawed == q.thawed :=
        fun p hp q hq => ih p hp (hs.part hp) (ht.part hq)
      rw [thawed_eq, thawed_eq]
      exact clear_beq (fun p hp => (hs.part hp).thawed) (fun q hq => (ht.part hq).thawed)
        hparts hparts h

theorem copied_beq (hs : s.WellFormed) (ht : t.WellFormed) (h : s == t) :
    s.copied == t.copied := by
  induction s using parts_induction generalizing t with
  | step s ih =>
      rw [copied_eq, copied_eq]
      refine clear_beq ?_ ?_ (fun _ _ _ _ h => h) ?_ (Assignability.expanded_beq h)
      all_goals simp only [parts_expanded]
      · exact fun p hp => (hs.part hp).copied
      · exact fun q hq => (ht.part hq).copied
      · exact fun p hp q hq => ih p hp (hs.part hp) (ht.part hq)

end Equality

section Flags

variable {t : Ty}

/-- The readonly flags of the outermost level of a type. -/
def readonlyFlags : Ty → List Bool
  | .object fields index =>
    fields.map (fun field => field.2.readonly) ++ index.toList.map IndexRule.readonly
  | .array _ readonly => [readonly]
  | .tuple elements => elements.map Slot.readonly
  | .mapped entries => entries.map fun entry => entry.2.readonly
  | _ => []

/-- No readonly flag is set, at any depth. -/
def Writable (t : Ty) : Prop :=
  ∀ u ∈ t.inside, true ∉ u.readonlyFlags

instance (t : Ty) : Decidable t.Writable :=
  inferInstanceAs (Decidable (∀ u ∈ t.inside, true ∉ u.readonlyFlags))

theorem writable_iff : t.Writable ↔ true ∉ t.readonlyFlags ∧ ∀ p ∈ t.parts, p.Writable := by
  simp only [Writable, inside_eq t, List.forall_mem_cons, List.forall_mem_flatMap]

theorem writable_of_isKeyDomain (h : t.isKeyDomain = true) : t.Writable := by
  induction t using parts_induction with
  | step t ih =>
      cases t with
      | primitive name => exact writable_iff.mpr ⟨by simp [readonlyFlags], by simp [parts]⟩
      | literal l => exact writable_iff.mpr ⟨by simp [readonlyFlags], by simp [parts]⟩
      | union members =>
          rw [isKeyDomain, areKeyDomains_iff] at h
          exact writable_iff.mpr ⟨by simp [readonlyFlags], fun m hm => ih m hm (h m hm)⟩
      | _ => cases h

theorem readonlyFlags_clear (f g : Ty → Ty) (t : Ty) : true ∉ (clear f g t).readonlyFlags := by
  cases t with
  | object fields index =>
      cases index <;> simp [clear, clearFields, readonlyFlags, Slot.clear, IndexRule.clear]
  | _ => simp [clear, clearFields, readonlyFlags, Slot.clear]

theorem WellFormed.writable_thawed (h : t.WellFormed) : t.thawed.Writable := by
  induction t using parts_induction with
  | step t ih =>
      rw [thawed_eq]
      refine writable_iff.mpr ⟨readonlyFlags_clear _ _ t, fun p hp => ?_⟩
      rcases mem_parts_clear hp with ⟨-, fields, r, rfl, rfl⟩ | ⟨q, hq, rfl | rfl⟩
      · exact writable_of_isKeyDomain h.wellMade.2
      · exact ih q hq (h.part hq)
      · exact ih q hq (h.part hq)

end Flags

section Idempotence

variable {f g : Ty → Ty} {t : Ty}

theorem clearFields_eq_self {fields : List (String × Slot Ty)}
    (hflags : ∀ e ∈ fields, e.2.readonly = false) (hf : ∀ e ∈ fields, f e.2.type = e.2.type) :
    clearFields f fields = fields := by
  refine (List.map_congr_left fun e he => ?_).trans (List.map_id fields)
  obtain ⟨name, u, readonly, optional⟩ := e
  have hu : f u = u := hf _ he
  have hreadonly : readonly = false := hflags _ he
  simp [Slot.clear, hu, hreadonly]

theorem clear_eq_self (h : t.WellMade) (hflags : true ∉ t.readonlyFlags)
    (hf : ∀ p ∈ t.parts, f p = p) (hg : ∀ members, t = .union members → ∀ m ∈ members, g m = m) :
    clear f g t = t := by
  cases t with
  | object fields index =>
      simp only [readonlyFlags, List.mem_append, List.mem_map, not_or, not_exists, not_and,
        Bool.not_eq_true] at hflags
      rw [clear, clearFields_eq_self hflags.1 fun e he => hf _ (mem_parts_of_mem_fields he)]
      cases index with
      | none => rfl
      | some r =>
          have hreadonly : r.readonly = false := hflags.2 r (by simp)
          rw [Option.map_some, IndexRule.clear, hf _ value_mem_parts, ← hreadonly]
  | array element readonly =>
      have hreadonly : readonly = false := by simpa [readonlyFlags] using hflags
      rw [clear, hf element (by simp [parts]), hreadonly]
  | tuple elements =>
      simp only [readonlyFlags, List.mem_map, not_exists, not_and, Bool.not_eq_true] at hflags
      refine congrArg tuple ((List.map_congr_left fun a ha => ?_).trans (List.map_id elements))
      rw [Slot.clear, hf _ (List.mem_map_of_mem ha), ← hflags a ha, id]
  | union members =>
      have hmap : members.map g = members :=
        (List.map_congr_left (hg members rfl)).trans (List.map_id members)
      rw [clear, hmap, distinct_eq_self h.2.2]
  | mapped entries =>
      simp only [readonlyFlags, List.mem_map, not_exists, not_and, Bool.not_eq_true] at hflags
      rw [clear, clearFields_eq_self hflags fun e he => hf _ (mem_parts_of_mem_entries he)]
  | _ => rfl

theorem thawed_eq_self (ht : t.WellFormed) (h : t.Writable) : t.thawed = t := by
  induction t using parts_induction with
  | step t ih =>
      obtain ⟨hflags, hparts⟩ := writable_iff.mp h
      have hself : ∀ p ∈ t.parts, p.thawed = p := fun p hp => ih p hp (ht.part hp) (hparts p hp)
      rw [thawed_eq]
      refine clear_eq_self ht.wellMade hflags hself ?_
      rintro members rfl
      exact hself

theorem expanded_copied (t : Ty) : t.copied.expanded = t.copied := by
  rw [copied_eq, expanded_clear, expanded_expanded]

theorem copied_copied (ht : t.WellFormed) : t.copied.copied = t.copied := by
  induction t using parts_induction with
  | step t ih =>
      rw [copied_eq t.copied, expanded_copied]
      refine clear_eq_self ht.copied.wellMade ?_ (fun _ _ => rfl) fun members hmembers m hm => ?_
      · rw [copied_eq]
        exact readonlyFlags_clear _ _ _
      · have hm' : m ∈ (clear id copied t.expanded).parts := by
          rw [← copied_eq, hmembers]
          exact hm
        cases t with
        | union ms =>
            obtain ⟨q, hq, rfl⟩ := List.mem_map.mp (mem_of_mem_distinct hm')
            exact ih q hq (ht.part hq)
        | _ => cases hmembers

end Idempotence

section Unmapped

variable {s t : Ty}

mutual

/-- The type with the mapped types expanded that stand at its top or among the members of its
unions. -/
def unmapped : Ty → Ty
  | .union members => .union (distinct (unmappedMembers members))
  | .mapped entries => (MappedTy.expand ⟨entries⟩).toTy
  | t => t
termination_by structural t => t

def unmappedMembers : List Ty → List Ty
  | [] => []
  | t :: rest => unmapped t :: unmappedMembers rest
termination_by structural members => members

end

theorem unmapped_union (members : List Ty) :
    (union members).unmapped = union (distinct (members.map unmapped)) := by
  have hmembers : unmappedMembers members = members.map unmapped := by
    induction members with
    | nil => rfl
    | cons m rest ih => rw [unmappedMembers, ih, List.map_cons]
  rw [unmapped, hmembers]

theorem unmapped_eq_expanded (h : ∀ members, t ≠ .union members) : t.unmapped = t.expanded := by
  cases t with
  | union members => exact absurd rfl (h members)
  | _ => rfl

theorem foreign?_unmapped (t : Ty) : t.unmapped.foreign? = t.foreign? := by
  cases t <;> rfl

theorem WellFormed.unmapped (h : t.WellFormed) : t.unmapped.WellFormed := by
  induction t using parts_induction with
  | step t ih =>
      cases t with
      | union members =>
          rw [unmapped_union]
          exact h.distinct_map fun m hm => ⟨ih m hm (h.part hm), foreign?_unmapped m⟩
      | _ => exact h.expanded

theorem unmapped_beq (hs : s.WellFormed) (ht : t.WellFormed) (h : s == t) :
    s.unmapped == t.unmapped := by
  induction s using parts_induction generalizing t with
  | step s ih =>
      cases alike_of_beq h with
      | union forth back =>
          rw [unmapped_union, unmapped_union]
          exact union_distinct_map_beq (fun m hm => (hs.part hm).unmapped)
            (fun m hm => (ht.part hm).unmapped)
            (fun m hm m' hm' => ih m hm (hs.part hm) (ht.part hm')) h
      | _ => exact Assignability.expanded_beq h

theorem unmapped_unmapped (ht : t.WellFormed) : t.unmapped.unmapped = t.unmapped := by
  induction t using parts_induction with
  | step t ih =>
      cases t with
      | union members =>
          have hself : (members.map unmapped).map unmapped = members.map unmapped := by
            rw [List.map_map]
            exact List.map_congr_left fun m hm => ih m hm (ht.part hm)
          have hwf : ∀ x ∈ members.map unmapped, x.WellFormed :=
            List.forall_mem_map.mpr fun m hm => (ht.part hm).unmapped
          rw [unmapped_union, unmapped_union, distinct_map_distinct hwf unmapped_beq, hself]
      | _ => rfl

theorem clear_clear (f g k : Ty → Ty) (h : ∀ members, t ≠ .union members) :
    clear f g (clear id k t) = clear f g t := by
  have hfields : ∀ fields, clearFields f (clearFields id fields) = clearFields f fields := by
    intro fields
    simp [clearFields, Slot.clear]
  cases t with
  | object fields index => cases index <;> simp [clear, hfields, IndexRule.clear]
  | tuple elements => simp [clear, Slot.clear]
  | union members => exact absurd rfl (h members)
  | mapped entries => rw [clear, clear, hfields, clear]
  | _ => rfl

/-- A thawed copy is the thawed type with its mapped types expanded. -/
theorem thawed_copied (ht : t.WellFormed) : t.copied.thawed = t.thawed.unmapped := by
  induction t using parts_induction with
  | step t ih =>
      by_cases hunion : ∃ members, t = .union members
      · obtain ⟨members, rfl⟩ := hunion
        have hcopied : ∀ x ∈ members.map copied, x.WellFormed :=
          List.forall_mem_map.mpr fun m hm => (ht.part hm).copied
        have hthawed : ∀ x ∈ members.map thawed, x.WellFormed :=
          List.forall_mem_map.mpr fun m hm => (ht.part hm).thawed
        have hmembers : (members.map copied).map thawed = (members.map thawed).map unmapped := by
          rw [List.map_map, List.map_map]
          exact List.map_congr_left fun m hm => ih m hm (ht.part hm)
        calc
          (union members).copied.thawed
            = union (distinct ((distinct (members.map copied)).map thawed)) := by
              rw [thawed_eq, copied_eq]
              rfl
          _ = union (distinct ((members.map copied).map thawed)) := by
              rw [distinct_map_distinct hcopied thawed_beq]
          _ = union (distinct ((distinct (members.map thawed)).map unmapped)) := by
              rw [hmembers, distinct_map_distinct hthawed unmapped_beq]
          _ = (union members).thawed.unmapped := by
              rw [thawed_eq, clear, unmapped_union]
      · have hlone : ∀ members, t.expanded ≠ .union members := by
          cases t <;> simp_all [expanded]
        have hlone' : ∀ members, t.thawed ≠ .union members := by
          rw [thawed_eq]
          cases t <;> simp_all [clear]
        rw [thawed_eq, copied_eq, clear_clear _ _ _ hlone, ← expanded_clear, ← thawed_eq,
          unmapped_eq_expanded hlone']

end Unmapped

section Rebuilt

variable {t : Ty}

/-- The presence of a slot is kept. -/
inductive SlotKept (E : Ty → Ty → Prop) : Slot Ty → Slot Ty → Prop
  | mk {t t' : Ty} {readonly readonly' : Bool} (optional : Bool) (h : E t t') :
      SlotKept E ⟨t, readonly, optional⟩ ⟨t', readonly', optional⟩

/-- The name of a field is kept, and its presence. -/
inductive FieldKept (E : Ty → Ty → Prop) : String × Slot Ty → String × Slot Ty → Prop
  | mk (name : String) {s s' : Slot Ty} (h : SlotKept E s s') : FieldKept E (name, s) (name, s')

/-- The key of an index rule is kept. -/
inductive RuleKept (E : Ty → Ty → Prop) : IndexRule Ty → IndexRule Ty → Prop
  | mk (key : Ty) {value value' : Ty} {readonly readonly' : Bool} (h : E value value') :
      RuleKept E ⟨key, value, readonly⟩ ⟨key, value', readonly'⟩

/-- A type rebuilt with other readonly flags, at every depth: fields and positions stay in their
order, and of members that have become equal a union keeps the first. -/
inductive Rebuilt : Ty → Ty → Prop
  | primitive (name : String) : Rebuilt (.primitive name) (.primitive name)
  | literal (l : Literal) : Rebuilt (.literal l) (.literal l)
  | object {fields fields' : List (String × Slot Ty)} {index index' : Option (IndexRule Ty)}
      (hfields : List.Forall₂ (FieldKept Rebuilt) fields fields')
      (hindex : Option.Rel (RuleKept Rebuilt) index index') :
      Rebuilt (.object fields index) (.object fields' index')
  | array {element element' : Ty} {readonly readonly' : Bool} (h : Rebuilt element element') :
      Rebuilt (.array element readonly) (.array element' readonly')
  | tuple {elements elements' : List (Slot Ty)}
      (h : List.Forall₂ (SlotKept Rebuilt) elements elements') :
      Rebuilt (.tuple elements) (.tuple elements')
  | union {members members' : List Ty} (h : List.Forall₂ Rebuilt members members') :
      Rebuilt (.union members) (.union (distinct members'))
  | mapped {entries entries' : List (String × Slot Ty)}
      (h : List.Forall₂ (FieldKept Rebuilt) entries entries') :
      Rebuilt (.mapped entries) (.mapped entries')
  | named (name : String) : Rebuilt (.named name) (.named name)

/-- No foreign value stands inside a type. -/
def Native (t : Ty) : Prop :=
  ∀ u ∈ t.inside, u.foreign? = none

instance (t : Ty) : Decidable t.Native :=
  inferInstanceAs (Decidable (∀ u ∈ t.inside, u.foreign? = none))

theorem native_iff : t.Native ↔ t.foreign? = none ∧ ∀ p ∈ t.parts, p.Native := by
  simp only [Native, inside_eq t, List.forall_mem_cons, List.forall_mem_flatMap]

theorem rebuilt_thawed (h : t.Native) : t.Rebuilt t.thawed := by
  induction t using parts_induction with
  | step t ih =>
      obtain ⟨hforeign, hparts⟩ := native_iff.mp h
      have hslot : ∀ s : Slot Ty, s.type ∈ t.parts → SlotKept Rebuilt s (s.clear thawed) :=
        fun s hs => .mk s.optional (ih s.type hs (hparts s.type hs))
      have hfields : ∀ fields : List (String × Slot Ty), (∀ e ∈ fields, e.2.type ∈ t.parts) →
          List.Forall₂ (FieldKept Rebuilt) fields (clearFields thawed fields) := by
        intro fields hmem
        rw [clearFields, List.forall₂_map_right_iff, List.forall₂_same]
        exact fun e he => .mk e.1 (hslot e.2 (hmem e he))
      rw [thawed_eq]
      cases t with
      | primitive name => exact .primitive name
      | literal l => exact .literal l
      | object fields index =>
          refine .object (hfields fields fun e he => mem_parts_of_mem_fields he) ?_
          cases index with
          | none => exact .none
          | some r => exact .some (.mk r.key (ih _ value_mem_parts (hparts _ value_mem_parts)))
      | array element readonly =>
          have helement : element ∈ (array element readonly).parts := by simp [parts]
          exact .array (ih element helement (hparts element helement))
      | tuple elements =>
          refine .tuple ?_
          rw [List.forall₂_map_right_iff, List.forall₂_same]
          exact fun s hs => hslot s (List.mem_map_of_mem hs)
      | union members =>
          refine .union ?_
          rw [List.forall₂_map_right_iff, List.forall₂_same]
          exact fun m hm => ih m hm (hparts m hm)
      | mapped entries => exact .mapped (hfields entries fun e he => mem_parts_of_mem_entries he)
      | named name => exact .named name
      | foreign v => cases hforeign

end Rebuilt

section Results

variable {f g : Ty → Ty} {s t : Ty}

theorem Native.clear (h : t.Native) (hf : ∀ p ∈ t.parts, (f p).Native)
    (hg : ∀ p ∈ t.parts, (g p).Native) : (clear f g t).Native := by
  obtain ⟨hforeign, hparts⟩ := native_iff.mp h
  refine native_iff.mpr ⟨(foreign?_clear t).trans hforeign, fun p hp => ?_⟩
  rcases mem_parts_clear hp with ⟨hp, -⟩ | ⟨q, hq, rfl | rfl⟩
  · exact hparts p hp
  · exact hf q hq
  · exact hg q hq

theorem Native.thawed (h : t.Native) : t.thawed.Native := by
  induction t using parts_induction with
  | step t ih =>
      have hparts := fun p hp => ih p hp ((native_iff.mp h).2 p hp)
      rw [thawed_eq]
      exact h.clear hparts hparts

theorem Native.copied (h : t.Native) : t.copied.Native := by
  induction t using parts_induction with
  | step t ih =>
      obtain ⟨hforeign, hparts⟩ := native_iff.mp h
      have hexpanded : t.expanded.Native := by
        rw [native_iff, foreign?_expanded, parts_expanded]
        exact ⟨hforeign, hparts⟩
      rw [copied_eq]
      refine hexpanded.clear ?_ ?_
      all_goals rw [parts_expanded]
      · exact hparts
      · exact fun p hp => ih p hp (hparts p hp)

theorem foreignInFields?_eq_none {fields : List (String × Slot Ty)}
    (h : ∀ e ∈ fields, e.2.type.foreignInside? = none) : foreignInFields? fields = none := by
  induction fields with
  | nil => rfl
  | cons e rest ih =>
      rw [List.forall_mem_cons] at h
      rw [foreignInFields?, h.1, ih h.2, Option.none_or]

theorem foreignInSlots?_eq_none {elements : List (Slot Ty)}
    (h : ∀ s ∈ elements, s.type.foreignInside? = none) : foreignInSlots? elements = none := by
  induction elements with
  | nil => rfl
  | cons s rest ih =>
      rw [List.forall_mem_cons] at h
      rw [foreignInSlots?, h.1, ih h.2, Option.none_or]

theorem foreignInMembers?_eq_none {members : List Ty}
    (h : ∀ m ∈ members, m.foreignInside? = none) : foreignInMembers? members = none := by
  induction members with
  | nil => rfl
  | cons m rest ih =>
      rw [List.forall_mem_cons] at h
      rw [foreignInMembers?, h.1, ih h.2, Option.none_or]

theorem Native.foreignInside? (h : t.Native) : t.foreignInside? = none := by
  induction t using parts_induction with
  | step t ih =>
      obtain ⟨hforeign, hparts⟩ := native_iff.mp h
      have hnone := fun p hp => ih p hp (hparts p hp)
      cases t with
      | object fields index =>
          rw [Ty.foreignInside?,
            foreignInFields?_eq_none fun e he => hnone _ (mem_parts_of_mem_fields he)]
          cases index with
          | none => rfl
          | some r => rw [foreignInIndex?, hnone _ value_mem_parts, Option.none_or]
      | array element readonly => exact hnone element (by simp [parts])
      | tuple elements =>
          exact foreignInSlots?_eq_none fun s hs => hnone _ (List.mem_map_of_mem hs)
      | union members => exact foreignInMembers?_eq_none hnone
      | mapped entries =>
          exact foreignInFields?_eq_none fun e he => hnone _ (mem_parts_of_mem_entries he)
      | foreign v => cases hforeign
      | _ => rfl

theorem Native.thaw (h : t.Native) : t.thaw = .ok t.thawed := by
  rw [Ty.thaw, h.foreignInside?]

theorem Native.copy (h : t.Native) : t.copy = .ok t.copied := by
  rw [Ty.copy, (native_iff.mp h).1]

/-- Thawing clears every flag and nothing else. Thawing and copying do nothing the second time and
respect equality, and a copy thaws to what the type thaws to, but for mapped types that the copy has
expanded. -/
theorem readonly_algebra (ht : t.WellFormed) (hnative : t.Native) :
    ∃ u c v, t.thaw = .ok u ∧ t.copy = .ok c ∧ c.thaw = .ok v ∧
      u.Writable ∧ t.Rebuilt u ∧ u.thaw = .ok u ∧ c.copy = .ok c ∧ v.unmapped == u.unmapped ∧
      ∀ s : Ty, s.WellFormed → s.Native → s == t →
        ∃ u' c', s.thaw = .ok u' ∧ s.copy = .ok c' ∧ u' == u ∧ c' == c := by
  refine ⟨t.thawed, t.copied, t.copied.thawed, hnative.thaw, hnative.copy, hnative.copied.thaw,
    ht.writable_thawed, rebuilt_thawed hnative, ?_, ?_, ?_, fun s hs hsnative h => ?_⟩
  · rw [hnative.thawed.thaw, thawed_eq_self ht.thawed ht.writable_thawed]
  · rw [hnative.copied.copy, copied_copied ht]
  · rw [thawed_copied ht, unmapped_unmapped ht.thawed]
    exact beq_refl ht.thawed.unmapped
  · exact ⟨s.thawed, s.copied, hsnative.thaw, hsnative.copy, thawed_beq hs ht h,
      copied_beq hs ht h⟩

/-- A note as a table and as an object that differ in one flag, a sheet, and pages frozen at both
levels or at one. -/
def bound : List Ty :=
  let note : Ty := .tuple [⟨.string, true, false⟩, ⟨.named "Author", false, true⟩]
  [.mapped [("note", ⟨note, true, true⟩)],
    .union [
      .object [("note", ⟨note, false, true⟩)] none,
      .object [("title", ⟨.string, true, false⟩)] (some ⟨.number, .array .string true, true⟩)],
    .array (.array .string true) true,
    .array (.array .string true) false]

theorem readonly_algebra_bound :
    ∃ u c v u', (union bound).thaw = .ok u ∧ (union bound).copy = .ok c ∧ c.thaw = .ok v ∧
      u.Writable ∧ ¬ c.Writable ∧ u.ownMembers.length = 3 ∧ u.thaw = .ok u ∧ c.copy = .ok c ∧
      (v == u) = false ∧ v.unmapped == u.unmapped ∧
      (union bound.reverse).thaw = .ok u' ∧ u' == u := by
  obtain ⟨u, c, v, hu, hc, hv, hwritable, -, hthaw, hcopy, hunmapped, hcongr⟩ :=
    readonly_algebra (t := union bound) (by decide) (by decide)
  obtain ⟨u', -, hu', -, hbeq, -⟩ :=
    hcongr (union bound.reverse) (by decide) (by decide) (by decide)
  cases hu
  cases hc
  cases hv
  exact ⟨_, _, _, u', rfl, rfl, rfl, hwritable, by decide, rfl, hthaw, hcopy, by decide, hunmapped,
    hu', hbeq⟩

end Results

end Ty

end StructuralTypes
