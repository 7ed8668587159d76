import StructuralTypes.Proofs.ObjectRuns

namespace StructuralTypes

/-- A change of modifiers, which leaves the types in an object as they are. -/
structure Remodel where
  slot : Slot Ty → Slot Ty
  index : IndexRule Ty → IndexRule Ty
  slot_type : ∀ s, (slot s).type = s.type
  index_key : ∀ r, (index r).key = r.key
  index_value : ∀ r, (index r).value = r.value

namespace Remodel

/-- The version of an object with changed modifiers. -/
def apply (c : Remodel) (o : ObjectTy) : ObjectTy :=
  ⟨o.fields.map fun f => (f.1, c.slot f.2), o.index.map c.index⟩

def keep : Remodel :=
  ⟨id, id, fun _ => rfl, fun _ => rfl, fun _ => rfl⟩

def readonly (flag : Bool) : Remodel :=
  ⟨Slot.setReadonly flag, IndexRule.setReadonly flag, fun _ => rfl, fun _ => rfl, fun _ => rfl⟩

def optional (flag : Bool) : Remodel :=
  ⟨Slot.setOptional flag, id, fun _ => rfl, fun _ => rfl, fun _ => rfl⟩

theorem keep_apply (o : ObjectTy) : keep.apply o = o := by
  simp [apply, keep]

theorem readonly_apply (flag : Bool) (o : ObjectTy) :
    (readonly flag).apply o = o.setReadonly flag :=
  rfl

theorem optional_apply (flag : Bool) (o : ObjectTy) :
    (optional flag).apply o = o.setOptional flag := by
  simp [apply, optional, ObjectTy.setOptional, ObjectTy.mapFields]

variable (c : Remodel) {o : ObjectTy}

theorem names_apply (o : ObjectTy) : Assoc.names (c.apply o).fields = Assoc.names o.fields := by
  simp [apply, Assoc.names]

theorem get?_apply (ho : o.toTy.WellFormed) {f : String × Slot Ty} (hf : f ∈ o.fields) :
    (c.apply o).get? f.1 = some (c.slot f.2) := by
  apply Assoc.lookup_of_mem
  · rw [names_apply]
    exact ho.names_nodup
  · exact List.mem_map.mpr ⟨f, hf, rfl⟩

theorem contains_apply {f : String × Slot Ty} (hf : f ∈ o.fields) :
    (c.apply o).contains f.1 = true := by
  rw [ObjectTy.contains, Assoc.contains_iff_mem_names, names_apply]
  exact List.mem_map_of_mem hf

theorem wellFormed_apply (ho : o.toTy.WellFormed) : (c.apply o).toTy.WellFormed := by
  apply Ty.wellFormed_object
  · rw [names_apply]
    exact ho.names_nodup
  · intro f hf
    obtain ⟨g, hg, rfl⟩ := List.mem_map.mp hf
    rw [c.slot_type]
    exact ho.part (Ty.mem_parts_of_mem_fields hg)
  · intro r hr
    obtain ⟨q, hq, rfl⟩ := Option.map_eq_some_iff.mp hr
    rw [c.index_key, c.index_value]
    exact ObjectTy.wellFormed_index ho hq

end Remodel

namespace ObjectTy

/-- The fields of the given names that the index rule has to take the place of fit it. -/
def LeftOutFit (R : Ty → Ty → Prop) (o : ObjectTy) (names : List String) : Prop :=
  ∀ r, o.index = some r → ∀ f ∈ o.fields, names.contains f.1 = true → r.key.HasName f.1 →
    Assignability.ValueFits R f.2.type f.2.readonly r.value r.readonly

theorem LeftOutFit.mono {R R' : Ty → Ty → Prop} (hR : ∀ s t, R s t → R' s t) {o : ObjectTy}
    {names : List String} (h : o.LeftOutFit R names) : o.LeftOutFit R' names :=
  fun r hr f hf hdropped hname => (h r hr f hf hdropped hname).mono hR

theorem wellFormed_keeping {o : ObjectTy} (ho : o.toTy.WellFormed) (names : List String) :
    (o.keeping names).toTy.WellFormed :=
  wellFormed_sublist ho List.filter_sublist (Or.inl rfl)

theorem wellFormed_dropping {o : ObjectTy} (ho : o.toTy.WellFormed) (names : List String) :
    (o.dropping names).toTy.WellFormed :=
  wellFormed_sublist ho List.filter_sublist (Or.inr rfl)

end ObjectTy

namespace Assignability

/-- Why a slot does not fit another of the same type, if it does not. -/
def slotObjection (s t : Slot Ty) : Option Reason :=
  if s.optional && !t.optional then some .optionalityMismatch
  else if s.readonly && !t.readonly then some .readonlyViolation
  else none

section Slots

variable {s t : Slot Ty}

theorem slotObjection_eq_none_iff : slotObjection s t = none ↔
    (s.optional = true → t.optional = true) ∧ (s.readonly = true → t.readonly = true) := by
  unfold slotObjection
  cases s.optional <;> cases t.optional <;> cases s.readonly <;> cases t.readonly <;> simp

theorem slotFits_of_no_objection (path : Path) (h : slotObjection s t = none) :
    slotFits path s t = [.fits path s.type t.type] := by
  obtain ⟨hoptional, hreadonly⟩ := slotObjection_eq_none_iff.mp h
  have hpresence : presence path s.optional t.optional s.type t.type = [] := by
    simpa [presence] using hoptional
  have hmutability : mutability path s.readonly t.readonly s.type t.type = [] := by
    simpa [mutability] using hreadonly
  rw [slotFits, hpresence, hmutability, List.append_nil]

theorem slotFits_of_objection (path : Path) {reason : Reason}
    (h : slotObjection s t = some reason) :
    ∃ rest, slotFits path s t =
      .fits path s.type t.type :: .unmet path reason s.type t.type :: rest := by
  unfold slotObjection at h
  split at h
  · rename_i hoptional
    cases h
    exact ⟨_, by rw [slotFits, presence, if_pos hoptional, List.singleton_append]⟩
  · rename_i hoptional
    split at h
    · rename_i hreadonly
      cases h
      exact ⟨[], by rw [slotFits, presence, mutability, if_neg hoptional, if_pos hreadonly,
        List.nil_append]⟩
    · cases h

end Slots

section Runs

variable {setting : Setting} {depth : Nat} {obligations rest : List Obligation}
  {A B : Assumptions} {v : Verdict}

theorem judgeAll_selfFit (hd : setting.declarations.WellFormed) {path : Path} {t : Ty}
    (ht : t.WellFormed) (hA : A.WellFormed)
    (h : judgeAll (search (rule setting.policy) setting.declarations depth)
      (.fits path t t :: rest) A = .ok (v, B)) :
    ∃ C, C.WellFormed ∧
      judgeAll (search (rule setting.policy) setting.declarations depth) rest C = .ok (v, B) := by
  rcases judgeAll_cons_eq_ok h with
    ⟨_, _, _, _, ho, -⟩ | ⟨_, _, _, C, ho, hrun, hrest⟩ | ⟨_, _, _, w, ho, hrun, hw, -⟩
  · cases ho
  · cases ho
    exact ⟨C, (search_keeps hd depth ht ht A _ C hA hrun).wellFormed hA, hrest⟩
  · cases ho
    exact absurd (Ty.Equal.refl ht) ((tolerant_equal hd).not_rejected hd ht ht hA hrun hw)

theorem judgeAll_selfFits (hd : setting.declarations.WellFormed)
    (hself : ∀ o ∈ obligations, ∃ path t, t.WellFormed ∧ o = .fits path t t) (hA : A.WellFormed)
    (h : judgeAll (search (rule setting.policy) setting.declarations depth) (obligations ++ rest) A
      = .ok (v, B)) :
    ∃ C, C.WellFormed ∧
      judgeAll (search (rule setting.policy) setting.declarations depth) rest C = .ok (v, B) := by
  induction obligations generalizing A with
  | nil => exact ⟨A, hA, h⟩
  | cons o others ih =>
      rw [List.forall_mem_cons] at hself
      obtain ⟨⟨path, t, ht, rfl⟩, hothers⟩ := hself
      obtain ⟨C, hC, hrest⟩ := judgeAll_selfFit hd ht hA h
      exact ih hothers hC hrest

end Runs

section Remodelled

variable {policy : Policy} {R : Ty → Ty → Prop} {c c' : Remodel} {o : ObjectTy}

theorem objectRule_apply (ho : o.toTy.WellFormed) :
    (objectRule policy (c.apply o) (c'.apply o)).obligations =
      o.fields.flatMap (fun f => slotFits [.field f.1] (c.slot f.2) (c'.slot f.2)) ++
        match o.index with
        | none => []
        | some r => indexFits (c.index r) (c'.index r) := by
  have hfields : (c'.apply o).fields.flatMap (fun f => fieldFits policy (c.apply o) f.1 f.2) =
      o.fields.flatMap fun f => slotFits [.field f.1] (c.slot f.2) (c'.slot f.2) := by
    show (o.fields.map fun f => (f.1, c'.slot f.2)).flatMap _ = _
    rw [List.flatMap_map]
    apply List.flatMap_congr
    intro f hf
    rw [fieldFits, c.get?_apply ho hf]
  -- each version declares the fields of the other
  have hextras : ∀ r', (c.apply o).fields.flatMap
      (fun f => extraFits (c'.apply o) r' f.1 f.2) = [] := by
    intro r'
    rw [List.flatMap_eq_nil_iff]
    intro f hf
    obtain ⟨g, hg, rfl⟩ := List.mem_map.mp hf
    rw [extraFits, if_pos (c'.contains_apply hg)]
  unfold objectRule Requirement.obligations
  rw [hfields]
  cases hindex : o.index with
  | none => simp [Remodel.apply, hindex]
  | some r =>
      have hr : ∀ c : Remodel, (c.apply o).index = some (c.index r) := by
        intro c
        rw [Remodel.apply, hindex, Option.map_some]
      simp only [hr, hextras, List.nil_append]

theorem objectFits_apply_iff (ho : o.toTy.WellFormed) (hR : ∀ a b, Ty.Equal a b → R a b) :
    ObjectFits policy R (c.apply o) (c'.apply o) ↔
      (∀ f ∈ o.fields, slotObjection (c.slot f.2) (c'.slot f.2) = none) ∧
        ∀ r, o.index = some r → (c.index r).readonly = true → (c'.index r).readonly = true := by
  have hrefl : ∀ t, t ∈ o.toTy.parts → R t t := fun t ht =>
    hR t t (.refl (ho.part ht))
  constructor
  · intro h
    refine ⟨fun f hf => ?_, fun r hr => ?_⟩
    · have hfield := h.fields (f.1, c'.slot f.2) (List.mem_map.mpr ⟨f, hf, rfl⟩)
      have hget := c.get?_apply ho hf
      cases hfield with
      | declared hs fits =>
          rw [hget] at hs
          cases hs
          exact slotObjection_eq_none_iff.mpr fits.2
      | absent hs => simp [hget] at hs
      | supplied hs => simp [hget] at hs
    · exact (h.index (c'.index r) (by simp [Remodel.apply, hr]) (c.index r)
        (by simp [Remodel.apply, hr])).2.2
  · rintro ⟨hfields, hindex⟩
    refine ⟨fun f' hf' => ?_, fun r' hr' f hf hnot => ?_, fun r' hr' r hr => ?_⟩
    · obtain ⟨f, hf, rfl⟩ := List.mem_map.mp hf'
      have hget := c.get?_apply ho hf
      refine .declared hget ⟨?_, slotObjection_eq_none_iff.mp (hfields f hf)⟩
      rw [c.slot_type, c'.slot_type]
      exact hrefl _ (Ty.mem_parts_of_mem_fields hf)
    · obtain ⟨g, hg, rfl⟩ := List.mem_map.mp hf
      rw [c'.contains_apply hg] at hnot
      cases hnot
    · obtain ⟨q, hq, rfl⟩ := Option.map_eq_some_iff.mp hr
      obtain ⟨q', hq', rfl⟩ := Option.map_eq_some_iff.mp hr'
      rw [hq] at hq'
      cases hq'
      refine ⟨?_, ?_, hindex q hq⟩
      · rw [c.index_key, c'.index_key]
        exact Ty.covers_refl (isKeyDomain_of_index ho hq)
      · rw [c.index_value, c'.index_value]
        exact hrefl _ (value_mem_parts hq)

variable {setting : Setting} {v : Verdict}

theorem accepted_apply_iff (hd : setting.declarations.WellFormed) (ho : o.toTy.WellFormed)
    (h : setting.check (c.apply o).toTy (c'.apply o).toTy = .ok v) :
    v = .accepted ↔ (∀ f ∈ o.fields, slotObjection (c.slot f.2) (c'.slot f.2) = none) ∧
      ∀ r, o.index = some r → (c.index r).readonly = true → (c'.index r).readonly = true := by
  rw [accepted_objects_iff hd (c.wellFormed_apply ho) (c'.wellFormed_apply ho) h]
  exact objectFits_apply_iff ho fun _ _ => Or.inl

theorem selfFits_of_no_objection (ho : o.toTy.WellFormed) {fields : List (String × Slot Ty)}
    (hsub : fields ⊆ o.fields)
    (hnone : ∀ f ∈ fields, slotObjection (c.slot f.2) (c'.slot f.2) = none) :
    ∀ x ∈ fields.flatMap (fun f => slotFits [.field f.1] (c.slot f.2) (c'.slot f.2)),
      ∃ path t, t.WellFormed ∧ x = .fits path t t := by
  intro x hx
  obtain ⟨f, hf, hx⟩ := List.mem_flatMap.mp hx
  rw [slotFits_of_no_objection _ (hnone f hf), c.slot_type, c'.slot_type] at hx
  exact ⟨_, f.2.type, ho.part (Ty.mem_parts_of_mem_fields (hsub hf)), List.mem_singleton.mp hx⟩

theorem rejected_apply_field (hd : setting.declarations.WellFormed) (ho : o.toTy.WellFormed)
    (h : setting.check (c.apply o).toTy (c'.apply o).toTy = .ok v)
    {before after : List (String × Slot Ty)} {f : String × Slot Ty}
    (hfields : o.fields = before ++ f :: after)
    (hbefore : ∀ g ∈ before, slotObjection (c.slot g.2) (c'.slot g.2) = none) {reason : Reason}
    (hf : slotObjection (c.slot f.2) (c'.slot f.2) = some reason) :
    v = .rejected [.field f.1] reason (some f.2.type) (some f.2.type) [] := by
  have hmem : f ∈ o.fields := by simp [hfields]
  have hwf : f.2.type.WellFormed := ho.part (Ty.mem_parts_of_mem_fields hmem)
  rcases check_objects hd (c.wellFormed_apply ho) (c'.wellFormed_apply ho) h (Nat.le_refl _) with
    ⟨-, rfl⟩ | ⟨-, B, hrun⟩
  · have hnone := ((accepted_apply_iff hd ho h).mp rfl).1 f hmem
    rw [hnone] at hf
    cases hf
  · obtain ⟨others, hslot⟩ := slotFits_of_objection [.field f.1] hf
    rw [objectRule_apply ho, hfields, List.flatMap_append, List.flatMap_cons, hslot, c.slot_type,
      c'.slot_type, List.append_assoc] at hrun
    have hsub : before ⊆ o.fields := by simp [hfields]
    obtain ⟨C, hC, hrun⟩ := judgeAll_selfFits hd (selfFits_of_no_objection ho hsub hbefore)
      (by simp [Assumptions.WellFormed]) hrun
    obtain ⟨D, -, hrun⟩ := judgeAll_selfFit hd hwf hC hrun
    cases hrun
    rfl

theorem rejected_apply_index (hd : setting.declarations.WellFormed) (ho : o.toTy.WellFormed)
    (h : setting.check (c.apply o).toTy (c'.apply o).toTy = .ok v)
    (hfields : ∀ f ∈ o.fields, slotObjection (c.slot f.2) (c'.slot f.2) = none)
    {r : IndexRule Ty} (hr : o.index = some r) (hreadonly : (c.index r).readonly = true)
    (hmutable : (c'.index r).readonly = false) :
    ∃ domain, r.key.renderDomain = .ok domain ∧
      v = .rejected [.index domain] .readonlyViolation (some r.value) (some r.value) [] := by
  have hwf : r.value.WellFormed := ho.part (value_mem_parts hr)
  rcases check_objects hd (c.wellFormed_apply ho) (c'.wellFormed_apply ho) h (Nat.le_refl _) with
    ⟨-, rfl⟩ | ⟨-, B, hrun⟩
  · have hflag := ((accepted_apply_iff hd ho h).mp rfl).2 r hr hreadonly
    rw [hmutable] at hflag
    cases hflag
  · rw [objectRule_apply ho, hr] at hrun
    obtain ⟨C, hC, hrun⟩ := judgeAll_selfFits hd
      (selfFits_of_no_objection ho (List.Subset.refl _) hfields) (by simp [Assumptions.WellFormed])
      hrun
    dsimp only [indexFits] at hrun
    rw [c.index_key, c'.index_key, c.index_value, c'.index_value, hreadonly, hmutable] at hrun
    split at hrun
    · cases hrun
    · rename_i domain hdomain
      refine ⟨domain, hdomain, ?_⟩
      split at hrun
      · cases hrun
      · rename_i hcovers
        have hrefl := (Ty.covers_eq_ok hcovers).mpr (Ty.covers_refl (isKeyDomain_of_index ho hr))
        cases hrefl
      · obtain ⟨D, -, hrun⟩ := judgeAll_selfFit hd hwf hC hrun
        cases hrun
        rfl

end Remodelled

section Parts

variable {policy : Policy} {R : Ty → Ty → Prop} {o : ObjectTy} {names : List String}

theorem fieldFits_self (ho : o.toTy.WellFormed) (hR : ∀ a b, Ty.Equal a b → R a b)
    {f : String × Slot Ty} (hf : f ∈ o.fields) : FieldFits policy R o f.1 f.2 := by
  have hwf : f.2.type.WellFormed := ho.part (Ty.mem_parts_of_mem_fields hf)
  exact .declared (Assoc.lookup_of_mem ho.names_nodup hf)
    ⟨hR _ _ (.refl hwf), id, id⟩

theorem objectFits_keeping (ho : o.toTy.WellFormed) (hR : ∀ a b, Ty.Equal a b → R a b) :
    ObjectFits policy R o (o.keeping names) :=
  ⟨fun _ hf => fieldFits_self ho hR (List.mem_filter.mp hf).1, nofun, nofun⟩

theorem contains_dropping_eq_false_iff {f : String × Slot Ty} (hf : f ∈ o.fields) :
    (o.dropping names).contains f.1 = false ↔ names.contains f.1 = true := by
  rw [← Bool.not_eq_true, ObjectTy.contains, Assoc.contains_iff_mem_names, Assoc.names,
    ObjectTy.dropping, List.mem_map]
  constructor
  · intro h
    by_contra hnot
    exact h ⟨f, List.mem_filter.mpr ⟨hf, by simpa using hnot⟩, rfl⟩
  · rintro h ⟨g, hg, heq⟩
    have hnot := (List.mem_filter.mp hg).2
    rw [heq, h] at hnot
    cases hnot

theorem objectFits_dropping (ho : o.toTy.WellFormed) (hR : ∀ a b, Ty.Equal a b → R a b)
    (h : o.LeftOutFit R names) : ObjectFits policy R o (o.dropping names) := by
  refine ⟨fun f hf => fieldFits_self ho hR (List.mem_filter.mp hf).1,
    fun r hr f hf hnot hname => ?_, fun r' hr' r hr => ?_⟩
  · exact h r hr f hf ((contains_dropping_eq_false_iff hf).mp hnot) hname
  · have hwf : r.value.WellFormed := ho.part (value_mem_parts hr)
    have hsame : r = r' := Option.some.inj (hr.symm.trans hr')
    subst hsame
    exact ⟨Ty.covers_refl (isKeyDomain_of_index ho hr), hR _ _ (.refl hwf), id⟩

theorem leftOutFit_of_objectFits (h : ObjectFits policy R o (o.dropping names)) :
    o.LeftOutFit R names := by
  intro r hr f hf hdropped hname
  exact h.extras r hr f hf ((contains_dropping_eq_false_iff hf).mpr hdropped) hname

theorem leftOutFit_of_beq (h : o.toTy == (o.dropping names).toTy) : o.LeftOutFit R names := by
  have hlength : o.fields.length = (o.dropping names).fields.length := by
    cases Ty.alike_of_beq h with
    | object length => exact length
  intro r hr f hf hdropped hname
  have hkept := (List.length_filter_eq_length_iff.mp hlength.symm) f hf
  rw [hdropped] at hkept
  cases hkept

variable {setting : Setting} {v : Verdict}

/-- An object is accepted without some of its fields exactly when its index rule can take their
place. -/
theorem accepted_dropping_iff (hd : setting.declarations.WellFormed) (ho : o.toTy.WellFormed)
    (h : setting.check o.toTy (o.dropping names).toTy = .ok v) :
    v = .accepted ↔ o.LeftOutFit (Assignable setting) names := by
  have ht := ObjectTy.wellFormed_dropping ho names
  constructor
  · rintro rfl
    have hassignable := (isAccepted_iff_assignable hd ho ht h).mp rfl
    rcases assignable_objects_iff.mp hassignable with hequal | hfits
    · exact leftOutFit_of_beq hequal
    · exact leftOutFit_of_objectFits hfits
  · intro hfit
    apply (accepted_objects_iff hd ho ht h).mpr
    exact objectFits_dropping ho (fun _ _ => Or.inl) (hfit.mono fun _ _ => Or.inr)

end Parts

section Exact

variable {c c' : Remodel} {o : ObjectTy} {setting : Setting} {v : Verdict}

theorem slotObjection_frozen (s : Slot Ty) :
    slotObjection (s.setReadonly true) s =
      if s.readonly then none else some .readonlyViolation := by
  obtain ⟨type, readonly, optional⟩ := s
  cases readonly <;> cases optional <;> rfl

theorem slotObjection_partial (s : Slot Ty) :
    slotObjection (s.setOptional true) s =
      if s.optional then none else some .optionalityMismatch := by
  obtain ⟨type, readonly, optional⟩ := s
  cases readonly <;> cases optional <;> rfl

/-- Where one flag alone can stand against a fit, the verdict names the first field without it. -/
theorem rejected_apply_first (hd : setting.declarations.WellFormed) (ho : o.toTy.WellFormed)
    {flag : Slot Ty → Bool} {reason : Reason}
    (hobjection : ∀ s, slotObjection (c.slot s) (c'.slot s) = if flag s then none else some reason)
    (h : setting.check (c.apply o).toTy (c'.apply o).toTy = .ok v) {f : String × Slot Ty}
    (hf : o.fields.find? (fun f => !flag f.2) = some f) :
    v = .rejected [.field f.1] reason (some f.2.type) (some f.2.type) [] := by
  obtain ⟨hflag, before, after, hfields, hbefore⟩ := List.find?_eq_some_iff_append.mp hf
  apply rejected_apply_field hd ho h hfields
  · intro g hg
    have hg := hbefore g hg
    rw [Bool.not_not] at hg
    rw [hobjection, if_pos hg]
  · rw [Bool.not_eq_true'] at hflag
    rw [hobjection, hflag]
    rfl

theorem check_frozen (hd : setting.declarations.WellFormed) (ho : o.toTy.WellFormed)
    (h : setting.check (o.setReadonly true).toTy o.toTy = .ok v) :
    (v = .accepted ↔ (∀ f ∈ o.fields, f.2.readonly = true) ∧
        ∀ r, o.index = some r → r.readonly = true) ∧
      (∀ f, o.fields.find? (fun f => !f.2.readonly) = some f →
        v = .rejected [.field f.1] .readonlyViolation (some f.2.type) (some f.2.type) []) ∧
      ((∀ f ∈ o.fields, f.2.readonly = true) → ∀ r, o.index = some r → r.readonly = false →
        ∃ domain, r.key.renderDomain = .ok domain ∧
          v = .rejected [.index domain] .readonlyViolation (some r.value) (some r.value) []) := by
  have h' : setting.check ((Remodel.readonly true).apply o).toTy (Remodel.keep.apply o).toTy
      = .ok v := by
    rwa [Remodel.readonly_apply, Remodel.keep_apply]
  have hobjection : ∀ s, slotObjection ((Remodel.readonly true).slot s) (Remodel.keep.slot s) =
      if s.readonly then none else some .readonlyViolation := slotObjection_frozen
  refine ⟨?_, fun f hf => ?_, fun hfields r hr hmutable => ?_⟩
  · rw [accepted_apply_iff hd ho h']
    simp only [hobjection]
    simp [Remodel.readonly, Remodel.keep, IndexRule.setReadonly]
  · exact rejected_apply_first hd ho hobjection h' hf
  · refine rejected_apply_index hd ho h' (fun f hf => ?_) hr rfl hmutable
    rw [hobjection, if_pos (hfields f hf)]

theorem check_partial (hd : setting.declarations.WellFormed) (ho : o.toTy.WellFormed)
    (h : setting.check (o.setOptional true).toTy o.toTy = .ok v) :
    (v = .accepted ↔ ∀ f ∈ o.fields, f.2.optional = true) ∧
      ∀ f, o.fields.find? (fun f => !f.2.optional) = some f →
        v = .rejected [.field f.1] .optionalityMismatch (some f.2.type) (some f.2.type) [] := by
  have h' : setting.check ((Remodel.optional true).apply o).toTy (Remodel.keep.apply o).toTy
      = .ok v := by
    rwa [Remodel.optional_apply, Remodel.keep_apply]
  have hobjection : ∀ s, slotObjection ((Remodel.optional true).slot s) (Remodel.keep.slot s) =
      if s.optional then none else some .optionalityMismatch := slotObjection_partial
  refine ⟨?_, fun f hf => rejected_apply_first hd ho hobjection h' hf⟩
  rw [accepted_apply_iff hd ho h']
  simp only [hobjection]
  simp [Remodel.optional, Remodel.keep]

end Exact

section Derived

variable {setting : Setting} {o : ObjectTy} {v : Verdict}

theorem accepted_of_apply (hd : setting.declarations.WellFormed) (ho : o.toTy.WellFormed)
    {c c' : Remodel} {s t : ObjectTy} (hs : c.apply o = s) (ht : c'.apply o = t)
    (hslot : ∀ s, slotObjection (c.slot s) (c'.slot s) = none)
    (hindex : ∀ r, (c.index r).readonly = true → (c'.index r).readonly = true)
    (h : setting.check s.toTy t.toTy = .ok v) : v = .accepted := by
  rw [← hs, ← ht] at h
  exact (accepted_apply_iff hd ho h).mpr ⟨fun f _ => hslot f.2, fun r _ => hindex r⟩

theorem leftOutFit_assignable_iff (hd : setting.declarations.WellFormed) (ho : o.toTy.WellFormed)
    {names : List String}
    (hchecks : ∀ r, o.index = some r → ∀ f ∈ o.fields, names.contains f.1 = true →
      r.key.HasName f.1 → ∃ w, setting.check f.2.type r.value = .ok w) :
    o.LeftOutFit (Assignable setting) names ↔
      o.LeftOutFit (fun s t => setting.check s t = .ok .accepted) names := by
  have hiff : ∀ r, o.index = some r → ∀ f ∈ o.fields, names.contains f.1 = true →
      r.key.HasName f.1 → (Assignable setting f.2.type r.value ↔
        setting.check f.2.type r.value = .ok .accepted) := by
    intro r hr f hf hdropped hname
    obtain ⟨w, hw⟩ := hchecks r hr f hf hdropped hname
    rw [← isAccepted_iff_assignable hd (ho.part (Ty.mem_parts_of_mem_fields hf))
      (ho.part (value_mem_parts hr)) hw, hw]
    cases w with
    | accepted => simp [Verdict.isAccepted]
    | rejected => simp [Verdict.isAccepted]
  constructor
  · intro h r hr f hf hdropped hname
    have hfit := h r hr f hf hdropped hname
    exact ⟨(hiff r hr f hf hdropped hname).mp hfit.1, hfit.2⟩
  · intro h r hr f hf hdropped hname
    have hfit := h r hr f hf hdropped hname
    exact ⟨(hiff r hr f hf hdropped hname).mpr hfit.1, hfit.2⟩

/-- Objects derived from an object, compared with it. With its fields required it fits the object;
the object fits itself with its fields optional or readonly, and any choice of its fields; and it
fits itself without some fields exactly when the index rule can take their place. The other way the
first field without the modifier stands against it, or the index rule. -/
theorem check_derived_objects (hd : setting.declarations.WellFormed) (ho : o.toTy.WellFormed)
    (names : List String) :
    (setting.check (o.setOptional false).toTy o.toTy = .ok v → v = .accepted) ∧
    (setting.check o.toTy (o.setOptional true).toTy = .ok v → v = .accepted) ∧
    (setting.check o.toTy (o.setReadonly true).toTy = .ok v → v = .accepted) ∧
    (setting.check o.toTy (o.keeping names).toTy = .ok v → v = .accepted) ∧
    (setting.check o.toTy (o.dropping names).toTy = .ok v →
      (v = .accepted ↔ o.LeftOutFit (Assignable setting) names) ∧
      ((∀ r, o.index = some r → ∀ f ∈ o.fields, names.contains f.1 = true → r.key.HasName f.1 →
          ∃ w, setting.check f.2.type r.value = .ok w) →
        (v = .accepted ↔ o.LeftOutFit (fun s t => setting.check s t = .ok .accepted) names))) ∧
    (setting.check (o.setReadonly true).toTy o.toTy = .ok v →
      (v = .accepted ↔ (∀ f ∈ o.fields, f.2.readonly = true) ∧
        ∀ r, o.index = some r → r.readonly = true) ∧
      (∀ f, o.fields.find? (fun f => !f.2.readonly) = some f →
        v = .rejected [.field f.1] .readonlyViolation (some f.2.type) (some f.2.type) []) ∧
      ((∀ f ∈ o.fields, f.2.readonly = true) → ∀ r, o.index = some r → r.readonly = false →
        ∃ domain, r.key.renderDomain = .ok domain ∧
          v = .rejected [.index domain] .readonlyViolation (some r.value) (some r.value) [])) ∧
    (setting.check (o.setOptional true).toTy o.toTy = .ok v →
      (v = .accepted ↔ ∀ f ∈ o.fields, f.2.optional = true) ∧
      ∀ f, o.fields.find? (fun f => !f.2.optional) = some f →
        v = .rejected [.field f.1] .optionalityMismatch (some f.2.type) (some f.2.type) []) := by
  refine ⟨?_, ?_, ?_, ?_, fun h => ⟨accepted_dropping_iff hd ho h, fun hchecks => ?_⟩,
    check_frozen hd ho, check_partial hd ho⟩
  · exact accepted_of_apply hd ho (Remodel.optional_apply false o) (Remodel.keep_apply o)
      (fun _ => slotObjection_eq_none_iff.mpr ⟨nofun, id⟩) (fun _ => id)
  · exact accepted_of_apply hd ho (Remodel.keep_apply o) (Remodel.optional_apply true o)
      (fun _ => slotObjection_eq_none_iff.mpr ⟨fun _ => rfl, id⟩) (fun _ => id)
  · exact accepted_of_apply hd ho (Remodel.keep_apply o) (Remodel.readonly_apply true o)
      (fun _ => slotObjection_eq_none_iff.mpr ⟨id, fun _ => rfl⟩) (fun _ _ => rfl)
  · exact (tolerant_equal hd).isAccepted_of_objectFits hd ho (ObjectTy.wellFormed_keeping ho names)
      (objectFits_keeping ho fun _ _ => id)
  · rw [accepted_dropping_iff hd ho h]
    exact leftOutFit_assignable_iff hd ho hchecks

def folders : Setting :=
  ⟨{}, .ofList [("Folder", .object [("name", ⟨.string, true, false⟩),
    ("parent", ⟨.named "Folder", false, true⟩)] none)]⟩

/-- A folder with a size, and names or sizes of what it holds under all other names. -/
def folder (sealed : Bool) : ObjectTy :=
  ⟨[("name", ⟨.string, true, false⟩), ("parent", ⟨.named "Folder", sealed, true⟩),
    ("size", ⟨.number, sealed, true⟩)], some ⟨.string, .union [.string, .number], false⟩⟩

theorem check_derived_folders :
    (∃ v, folders.check ((folder false).setOptional false).toTy (folder false).toTy = .ok v ∧
      v = .accepted) ∧
    (∃ v, folders.check (folder false).toTy ((folder false).setOptional true).toTy = .ok v ∧
      v = .accepted) ∧
    (∃ v, folders.check (folder false).toTy ((folder false).setReadonly true).toTy = .ok v ∧
      v = .accepted) ∧
    (∃ v, folders.check (folder false).toTy ((folder false).keeping ["size", "name"]).toTy = .ok v ∧
      v = .accepted) ∧
    (∃ v, folders.check (folder false).toTy ((folder false).dropping ["size"]).toTy = .ok v ∧
      v = .accepted) ∧
    (∃ v, folders.check (folder false).toTy ((folder false).dropping ["name"]).toTy = .ok v ∧
      v ≠ .accepted) ∧
    (∃ v, folders.check ((folder false).setReadonly true).toTy (folder false).toTy = .ok v ∧
      v = .rejected [.field "parent"] .readonlyViolation (some (.named "Folder"))
        (some (.named "Folder")) []) ∧
    (∃ v, folders.check ((folder true).setReadonly true).toTy (folder true).toTy = .ok v ∧
      v = .rejected [.index "string"] .readonlyViolation (some (.union [.string, .number]))
        (some (.union [.string, .number])) []) ∧
    (∃ v, folders.check ((folder false).setOptional true).toTy (folder false).toTy = .ok v ∧
      v = .rejected [.field "name"] .optionalityMismatch (some .string) (some .string) []) := by
  have hd : folders.declarations.WellFormed := by decide
  have ho : ∀ sealed, (folder sealed).toTy.WellFormed := by decide
  refine ⟨?_, ?_, ?_, ?_, ?_, ?_, ?_, ?_, ?_⟩
  · exact ⟨_, rfl, (check_derived_objects hd (ho false) []).1 rfl⟩
  · exact ⟨_, rfl, (check_derived_objects hd (ho false) []).2.1 rfl⟩
  · exact ⟨_, rfl, (check_derived_objects hd (ho false) []).2.2.1 rfl⟩
  · exact ⟨_, rfl, (check_derived_objects hd (ho false) ["size", "name"]).2.2.2.1 rfl⟩
  · refine ⟨_, rfl, (((check_derived_objects hd (ho false) ["size"]).2.2.2.2.1 rfl).2 ?_).mpr ?_⟩
    · rintro r ⟨⟩
      simp only [folder, List.forall_mem_cons]
      exact ⟨nofun, nofun, fun _ _ => ⟨_, rfl⟩, by simp⟩
    · rintro r ⟨⟩
      simp only [folder, List.forall_mem_cons]
      exact ⟨nofun, nofun, fun _ _ => ⟨rfl, nofun⟩, by simp⟩
  · have hv : ∃ v, folders.check (folder false).toTy ((folder false).dropping ["name"]).toTy
        = .ok v := ⟨_, rfl⟩
    obtain ⟨v, hv⟩ := hv
    refine ⟨v, hv, fun haccepted => ?_⟩
    have hfit := ((check_derived_objects hd (ho false) ["name"]).2.2.2.2.1 hv).1.mp haccepted
    have hname : Ty.string.HasName "name" := (Ty.inDomain_eq_ok (b := true) rfl).mp rfl
    have hflag := (hfit _ rfl ("name", ⟨.string, true, false⟩) (by simp [folder]) rfl hname).2 rfl
    cases hflag
  · exact ⟨_, rfl, ((check_derived_objects hd (ho false) []).2.2.2.2.2.1 rfl).2.1 _ rfl⟩
  · have hv : ∃ v, folders.check ((folder true).setReadonly true).toTy (folder true).toTy
        = .ok v := ⟨_, rfl⟩
    obtain ⟨v, hv⟩ := hv
    obtain ⟨domain, hdomain, rfl⟩ :=
      ((check_derived_objects hd (ho true) []).2.2.2.2.2.1 hv).2.2 (by decide) _ rfl rfl
    have hname : Except.ok "string" = Except.ok domain := hdomain
    cases hname
    exact ⟨_, hv, rfl⟩
  · exact ⟨_, rfl, ((check_derived_objects hd (ho false) []).2.2.2.2.2.2 rfl).2 _ rfl⟩

end Derived

end Assignability

end StructuralTypes
