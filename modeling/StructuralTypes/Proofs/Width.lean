import StructuralTypes.Proofs.Build
import StructuralTypes.Proofs.ObjectRuns

namespace StructuralTypes

namespace Assoc

variable {β γ : Type}

theorem lookup_erase_of_ne {name name' : String} (h : name' ≠ name) (table : List (String × β)) :
    (erase name table).lookup name' = table.lookup name' := by
  induction table with
  | nil => rfl
  | cons entry rest ih =>
      obtain ⟨n, v⟩ := entry
      unfold erase at ih ⊢
      rw [List.filter_cons]
      split
      · rw [List.lookup_cons, List.lookup_cons, ih]
      · rename_i hn
        have hsame : n = name := by simpa using hn
        have hne : (name' == n) = false := by simpa [hsame] using h
        rw [ih, List.lookup_cons, hne]

theorem erase_insert (name : String) (value : β) (table : List (String × β)) :
    erase name (insert name value table) = erase name table := by
  induction table with
  | nil => simp [erase, insert]
  | cons entry rest ih =>
      unfold insert
      split
      · rename_i hn
        simp [erase, hn]
      · unfold erase at ih ⊢
        rw [List.filter_cons, List.filter_cons, ih]

theorem flatMap_erase {name : String} {g : String × β → List γ} (h : ∀ value, g (name, value) = [])
    (table : List (String × β)) : (erase name table).flatMap g = table.flatMap g := by
  induction table with
  | nil => rfl
  | cons entry rest ih =>
      obtain ⟨n, v⟩ := entry
      unfold erase at ih ⊢
      rw [List.filter_cons, List.flatMap_cons]
      split
      · rw [List.flatMap_cons, ih]
      · rename_i hn
        have hsame : n = name := by simpa using hn
        rw [ih, hsame, h, List.nil_append]

end Assoc

namespace ObjectTy

variable {name : String} {s s' : ObjectTy}

/-- Two objects are the same, but for one field. -/
def SameBut (name : String) (s s' : ObjectTy) : Prop :=
  s.erase name = s'.erase name

theorem sameBut_insert (name : String) (slot : Slot Ty) (s : ObjectTy) :
    SameBut name s (s.insert name slot) := by
  unfold SameBut erase insert
  rw [Assoc.erase_insert]

theorem sameBut_erase (name : String) (s : ObjectTy) : SameBut name s (s.erase name) := by
  simp [SameBut, erase, Assoc.erase]

namespace SameBut

theorem symm (h : SameBut name s s') : SameBut name s' s :=
  Eq.symm h

theorem fields (h : SameBut name s s') : Assoc.erase name s.fields = Assoc.erase name s'.fields :=
  congrArg ObjectTy.fields h

theorem index (h : SameBut name s s') : s.index = s'.index := by
  have hindex : (s.erase name).index = (s'.erase name).index := congrArg ObjectTy.index h
  exact hindex

theorem get? (h : SameBut name s s') {other : String} (hother : other ≠ name) :
    s.get? other = s'.get? other := by
  unfold ObjectTy.get?
  rw [← Assoc.lookup_erase_of_ne hother, h.fields, Assoc.lookup_erase_of_ne hother]

theorem mem_fields (h : SameBut name s s') {f : String × Slot Ty} (hf : f ∈ s.fields)
    (hne : f.1 ≠ name) : f ∈ s'.fields := by
  have hkept : f ∈ Assoc.erase name s.fields := List.mem_filter.mpr ⟨hf, by simpa using hne⟩
  rw [h.fields] at hkept
  exact (List.mem_filter.mp hkept).1

end SameBut

theorem wellFormed_erase (hs : s.toTy.WellFormed) (name : String) :
    (s.erase name).toTy.WellFormed :=
  wellFormed_sublist hs List.filter_sublist (Or.inr rfl)

theorem wellFormed_insert (hs : s.toTy.WellFormed) (name : String) {slot : Slot Ty}
    (hslot : slot.type.WellFormed) : (s.insert name slot).toTy.WellFormed := by
  apply Ty.wellFormed_object
  · exact Assoc.names_insert_nodup hs.names_nodup name slot
  · intro f hf
    rcases Assoc.mem_insert hf with rfl | hmem
    · exact hslot
    · exact hs.part (Ty.mem_parts_of_mem_fields hmem)
  · exact fun r hr => wellFormed_index hs hr

theorem insertSpec_eq_ok {spec : SlotSpec} (h : s.insertSpec name spec = .ok s') :
    ∃ slot, spec.toSlot .notField = .ok slot ∧ s' = s.insert name slot := by
  unfold insertSpec at h
  cases hslot : spec.toSlot .notField with
  | error fault =>
      rw [hslot] at h
      cases h
  | ok slot =>
      rw [hslot] at h
      exact ⟨slot, rfl, (Except.ok.inj h).symm⟩

/-- The object does not ask for a field: neither does it declare the field, nor is the name in the
domain of its index rule. -/
def Ignores (t : ObjectTy) (name : String) : Prop :=
  t.contains name = false ∧ ∀ r, t.index = some r → ¬ r.key.HasName name

theorem Ignores.ne_of_mem {t : ObjectTy} (h : t.Ignores name) {f : String × Slot Ty}
    (hf : f ∈ t.fields) : f.1 ≠ name := by
  rintro rfl
  have hcontains : t.contains f.1 = true :=
    (Assoc.contains_iff_mem_names t.fields f.1).mpr (List.mem_map_of_mem hf)
  rw [h.1] at hcontains
  cases hcontains

end ObjectTy

namespace Verdict

/-- Where and why a source does not fit, when it does not. -/
def failure? : Verdict → Option (Path × Reason)
  | .accepted => none
  | .rejected path reason .. => some (path, reason)

end Verdict

namespace Assignability

open ObjectTy

/-- What an obligation can show in a verdict: the types to be judged, or the reason why it is not
met. -/
def Obligation.outline : Obligation → Option (Path × (Ty × Ty ⊕ Reason))
  | .fits path s t => some (path, .inl (s, t))
  | .unmet path reason _ _ => some (path, .inr reason)
  | .fault _ => none

section Outlines

variable {judge : Judge} {A B B' : Assumptions} {v v' : Verdict} {l l' : List Obligation}

theorem eq_nil_of_outlines {result : Verdict × Assumptions} (hnone : ∀ o ∈ l, o.outline = none)
    (h : judgeAll judge (l ++ l') A = .ok result) : l = [] := by
  cases l with
  | nil => rfl
  | cons o rest =>
      have ho := hnone o List.mem_cons_self
      cases o with
      | fits path s t => cases ho
      | unmet path reason s t => cases ho
      | fault fault => cases h

/-- Lists of obligations with the same outlines fail in the same way, where no fault comes first. -/
theorem failure?_eq_of_outlines
    (hsame : l.filterMap Obligation.outline = l'.filterMap Obligation.outline)
    (h : judgeAll judge l A = .ok (v, B)) (h' : judgeAll judge l' A = .ok (v', B')) :
    v.failure? = v'.failure? := by
  induction l generalizing l' A with
  | nil =>
      have hnone := List.filterMap_eq_nil_iff.mp hsame.symm
      have hrun : judgeAll judge (l' ++ []) A = .ok (v', B') := by rwa [List.append_nil]
      obtain rfl := eq_nil_of_outlines hnone hrun
      cases h
      cases h'
      rfl
  | cons o rest ih =>
      cases o with
      | fault fault => cases h
      | unmet path reason s t =>
          obtain ⟨before, o', after, rfl, hnone, ho', -⟩ := List.filterMap_eq_cons_iff.mp hsame.symm
          obtain rfl := eq_nil_of_outlines hnone h'
          cases o' with
          | fault fault => cases ho'
          | fits path' s' t' => cases ho'
          | unmet path' reason' s' t' =>
              cases ho'
              cases h
              cases h'
              rfl
      | fits path s t =>
          obtain ⟨before, o', after, rfl, hnone, ho', hafter⟩ :=
            List.filterMap_eq_cons_iff.mp hsame.symm
          obtain rfl := eq_nil_of_outlines hnone h'
          cases o' with
          | fault fault => cases ho'
          | unmet path' reason' s' t' => cases ho'
          | fits path' s' t' =>
              cases ho'
              rw [List.nil_append, judgeAll] at h'
              rw [judgeAll] at h
              cases hjudge : judge s t A with
              | error fault => simp [hjudge] at h
              | ok result =>
                  obtain ⟨w, C⟩ := result
                  rw [hjudge] at h h'
                  cases w with
                  | accepted => exact ih hafter.symm h h'
                  | rejected =>
                      cases h
                      cases h'
                      rfl

end Outlines

section Objects

variable {policy : Policy} {name : String} {s s' t : ObjectTy}

theorem outline_fieldFits (hsame : SameBut name s s') {other : String} (hother : other ≠ name)
    (slot : Slot Ty) :
    (fieldFits policy s other slot).filterMap Obligation.outline =
      (fieldFits policy s' other slot).filterMap Obligation.outline := by
  unfold fieldFits
  rw [hsame.get? hother, hsame.index]
  split
  · rfl
  · split
    · rfl
    · dsimp only
      split
      · rfl
      · split
        · split <;> rfl
        · rfl

theorem outline_extraFits (h : t.Ignores name) {r : IndexRule Ty} (hr : t.index = some r)
    (slot : Slot Ty) : (extraFits t r name slot).filterMap Obligation.outline = [] := by
  unfold extraFits
  split
  · rfl
  · split
    · rfl
    · rfl
    · rename_i hdomain
      exact absurd ((Ty.inDomain_eq_ok hdomain).mp rfl) (h.2 r hr)

theorem outline_objectRule (policy : Policy) (hsame : SameBut name s s') (h : t.Ignores name) :
    (objectRule policy s t).obligations.filterMap Obligation.outline =
      (objectRule policy s' t).obligations.filterMap Obligation.outline := by
  unfold objectRule Requirement.obligations
  simp only [List.filterMap_append, List.filterMap_flatMap]
  congr 1
  · apply List.flatMap_congr
    intro f hf
    exact outline_fieldFits hsame (h.ne_of_mem hf) f.2
  · cases hindex : t.index with
    | none => rfl
    | some r =>
        have hextras : ∀ o : ObjectTy, (o.fields.flatMap fun f =>
            (extraFits t r f.1 f.2).filterMap Obligation.outline) =
            (Assoc.erase name o.fields).flatMap fun f =>
              (extraFits t r f.1 f.2).filterMap Obligation.outline :=
          fun o => (Assoc.flatMap_erase (outline_extraFits h hindex) o.fields).symm
        simp only [List.filterMap_append, List.filterMap_flatMap]
        rw [hextras s, hextras s', hsame.fields, hsame.index]

variable {R : Ty → Ty → Prop}

theorem fieldFits_of_sameBut (hsame : SameBut name s s') {other : String} (hother : other ≠ name)
    {slot : Slot Ty} (h : FieldFits policy R s other slot) : FieldFits policy R s' other slot := by
  cases h with
  | declared hget fits => exact .declared (hsame.get? hother ▸ hget) fits
  | absent hget optional => exact .absent (hsame.get? hother ▸ hget) optional
  | supplied hget hindex allowed hname fits =>
      exact .supplied (hsame.get? hother ▸ hget) (hsame.index ▸ hindex) allowed hname fits

theorem objectFits_of_sameBut (hsame : SameBut name s s') (h : t.Ignores name)
    (hfits : ObjectFits policy R s t) : ObjectFits policy R s' t := by
  refine ⟨fun f hf => ?_, fun r hr f hf hnot hname => ?_, fun r' hr' r hr => ?_⟩
  · exact fieldFits_of_sameBut hsame (h.ne_of_mem hf) (hfits.fields f hf)
  · have hne : f.1 ≠ name := by
      rintro rfl
      exact h.2 r hr hname
    exact hfits.extras r hr f (hsame.symm.mem_fields hf hne) hnot hname
  · exact hfits.index r' hr' r (hsame.index ▸ hr)

variable {setting : Setting} {v v' : Verdict}

theorem Judged.objects (hd : setting.declarations.WellFormed) (hs : s.toTy.WellFormed)
    (ht : t.toTy.WellFormed) (h : Judged setting s.toTy t.toTy v) {depth : Nat}
    (hdepth : depthBound setting.declarations s.toTy t.toTy ≤ depth) :
    Ty.Equal s.toTy t.toTy ∧ v = .accepted ∨
      setting.check s.toTy t.toTy = .ok v ∧
        ∃ B, judgeAll (search (rule setting.policy) setting.declarations depth)
          (objectRule setting.policy s t).obligations [] = .ok (v, B) := by
  rcases h with h | ⟨hsame, hself⟩
  · rcases check_objects hd hs ht h hdepth with ⟨hequal, hv⟩ | ⟨-, hrun⟩
    · exact Or.inl ⟨⟨hs, ht, hequal⟩, hv⟩
    · exact Or.inr ⟨h, hrun⟩
  · refine Or.inl ⟨⟨hs, ht, ?_⟩, eq_accepted_of_isAccepted (isAccepted_of_checkSelf hself)⟩
    rw [← hsame]
    exact Ty.beq_refl hs

theorem accepted_of_sameBut_equal (hd : setting.declarations.WellFormed)
    (hs' : s'.toTy.WellFormed) (hsame : SameBut name s s') (h : t.Ignores name)
    (hequal : Ty.Equal s.toTy t.toTy) (hcheck : setting.check s'.toTy t.toTy = .ok v) :
    v = .accepted :=
  (tolerant_equal hd).isAccepted_of_objectFits hd hs' hequal.wellFormed'
    (objectFits_of_sameBut hsame h (objectFits_of_equal hequal)) hcheck

theorem Judged.failure?_eq_of_sameBut (hd : setting.declarations.WellFormed)
    (hs : s.toTy.WellFormed) (hs' : s'.toTy.WellFormed) (ht : t.toTy.WellFormed)
    (hsame : SameBut name s s') (hignores : t.Ignores name) (h : Judged setting s.toTy t.toTy v)
    (h' : Judged setting s'.toTy t.toTy v') : v.failure? = v'.failure? := by
  -- both runs at one depth, so that the parts are judged alike
  have hrun := h.objects hd hs ht
    (Nat.le_max_left _ (depthBound setting.declarations s'.toTy t.toTy))
  have hrun' := h'.objects hd hs' ht
    (Nat.le_max_right (depthBound setting.declarations s.toTy t.toTy) _)
  rcases hrun with ⟨hequal, rfl⟩ | ⟨hcheck, B, hrun⟩
  · rcases hrun' with ⟨-, rfl⟩ | ⟨hcheck', -⟩
    · rfl
    · rw [accepted_of_sameBut_equal hd hs' hsame hignores hequal hcheck']
  · rcases hrun' with ⟨hequal', rfl⟩ | ⟨-, B', hrun'⟩
    · rw [accepted_of_sameBut_equal hd hs hsame.symm hignores hequal' hcheck]
    · exact failure?_eq_of_outlines (outline_objectRule setting.policy hsame hignores) hrun hrun'

/-- A field that the target does not ask for is irrelevant: with it, with another in its place and
without it a source fits, or fails at the same place and for the same reason. -/
theorem check_width (hd : setting.declarations.WellFormed) (hs : s.toTy.WellFormed)
    (ht : t.toTy.WellFormed) (hignores : t.Ignores name) (h : Judged setting s.toTy t.toTy v) :
    (∀ spec s' v', (Ty.specType spec).WellFormed → s.insertSpec name spec = .ok s' →
      Judged setting s'.toTy t.toTy v' → v'.failure? = v.failure?) ∧
    ∀ v', Judged setting (s.erase name).toTy t.toTy v' → v'.failure? = v.failure? := by
  constructor
  · intro spec s' v' hspec hinsert h'
    obtain ⟨slot, hslot, rfl⟩ := insertSpec_eq_ok hinsert
    have hwf : slot.type.WellFormed := by rwa [Ty.type_of_toSlot hslot]
    exact h'.failure?_eq_of_sameBut hd (wellFormed_insert hs name hwf) hs ht
      (sameBut_insert name slot s).symm hignores h
  · intro v' h'
    exact h'.failure?_eq_of_sameBut hd (wellFormed_erase hs name) hs ht
      (sameBut_erase name s).symm hignores h

def crates : Setting :=
  ⟨{}, .ofList [("Crate", .object [("inner", ⟨.named "Crate", false, true⟩)] none)]⟩

/-- A shelf with a crate on top and weights on two sides. -/
def shelf : ObjectTy :=
  ⟨[("top", ⟨.named "Crate", false, false⟩)],
    some ⟨.union [.literal (.text "left"), .literal (.text "right")], .number, false⟩⟩

def shelfWith (left : Ty) : ObjectTy :=
  ⟨[("top", ⟨.named "Crate", false, false⟩), ("left", ⟨left, false, false⟩)], none⟩

/-- A label changes nothing, whether a side is wrong or the shelf is compared with itself, where the
label makes the difference between equal types and types that fit part by part. -/
theorem check_width_shelf :
    (∃ v v' s', crates.check (shelfWith .string).toTy shelf.toTy = .ok v ∧
      (shelfWith .string).insertSpec "label" (.bare .string) = .ok s' ∧
      crates.check s'.toTy shelf.toTy = .ok v' ∧
      v.failure? = some ([.field "left"], .typeMismatch) ∧ v'.failure? = v.failure?) ∧
    (∃ v' s', shelf.insertSpec "label" (.bare .string) = .ok s' ∧ (s'.toTy == shelf.toTy) = false ∧
      crates.check s'.toTy shelf.toTy = .ok v' ∧ v'.failure? = none) ∧
    ∃ v v' s, (shelfWith .number).insertSpec "label" (.bare .number) = .ok s ∧
      crates.check s.toTy shelf.toTy = .ok v ∧
      crates.check (s.erase "label").toTy shelf.toTy = .ok v' ∧ v'.failure? = v.failure? := by
  have hd : crates.declarations.WellFormed := by decide
  have hshelf : shelf.toTy.WellFormed := by decide
  have hignores : shelf.Ignores "label" := by
    refine ⟨rfl, fun r hr hname => ?_⟩
    cases hr
    cases (Ty.inDomain_eq_ok (b := false) rfl).mpr hname
  refine ⟨?_, ?_, ?_⟩
  · have hv : ∃ v, crates.check (shelfWith .string).toTy shelf.toTy = .ok v ∧
        v.failure? = some ([.field "left"], .typeMismatch) := ⟨_, rfl, rfl⟩
    have hv' : ∃ v, crates.check ((shelfWith .string).insert "label" ⟨.string, false, false⟩).toTy
        shelf.toTy = .ok v := ⟨_, rfl⟩
    obtain ⟨v, hv, hfailure⟩ := hv
    obtain ⟨v', hv'⟩ := hv'
    have hwidth := check_width hd (by decide) hshelf hignores (Or.inl hv)
    exact ⟨v, v', _, hv, rfl, hv', hfailure,
      hwidth.1 (.bare .string) _ v' (by decide) rfl (Or.inl hv')⟩
  · have hv' : ∃ v, crates.check (shelf.insert "label" ⟨.string, false, false⟩).toTy
        shelf.toTy = .ok v := ⟨_, rfl⟩
    have hself : Judged crates shelf.toTy shelf.toTy .accepted := Or.inr ⟨rfl, rfl⟩
    obtain ⟨v', hv'⟩ := hv'
    exact ⟨v', _, rfl, by decide, hv',
      (check_width hd hshelf hshelf hignores hself).1 (.bare .string) _ v' (by decide) rfl
        (Or.inl hv')⟩
  · have hv : ∃ v, crates.check ((shelfWith .number).insert "label" ⟨.number, false, false⟩).toTy
        shelf.toTy = .ok v := ⟨_, rfl⟩
    have hv' : ∃ v, crates.check (((shelfWith .number).insert "label"
        ⟨.number, false, false⟩).erase "label").toTy shelf.toTy = .ok v := ⟨_, rfl⟩
    obtain ⟨v, hv⟩ := hv
    obtain ⟨v', hv'⟩ := hv'
    exact ⟨v, v', _, rfl, hv, hv',
      (check_width hd (by decide) hshelf hignores (Or.inl hv)).2 v' (Or.inl hv')⟩

end Objects

end Assignability

end StructuralTypes
