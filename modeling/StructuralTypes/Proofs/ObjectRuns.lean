import StructuralTypes.Proofs.Reordering
import StructuralTypes.Proofs.Structure
import StructuralTypes.Proofs.Termination

namespace StructuralTypes

namespace ObjectTy

open Assignability

theorem wellFormed_index {o : ObjectTy} {r : IndexRule Ty} (ho : o.toTy.WellFormed)
    (hr : o.index = some r) :
    r.key.isKeyDomain = true ∧ r.key.WellFormed ∧ r.value.WellFormed :=
  ⟨isKeyDomain_of_index ho hr, ho.part (key_mem_parts hr), ho.part (value_mem_parts hr)⟩

theorem wellFormed_sublist {o t : ObjectTy} (ho : o.toTy.WellFormed)
    (hfields : t.fields.Sublist o.fields) (hindex : t.index = none ∨ t.index = o.index) :
    t.toTy.WellFormed := by
  apply Ty.wellFormed_object
  · exact ho.names_nodup.sublist (hfields.map Prod.fst)
  · exact fun f hf => ho.part (Ty.mem_parts_of_mem_fields (hfields.subset hf))
  · intro r hr
    rcases hindex with hnone | hsame
    · rw [hnone] at hr
      cases hr
    · exact wellFormed_index ho (hsame.symm.trans hr)

theorem toTy_ne_primitive (o : ObjectTy) (name : String) : o.toTy ≠ .primitive name := by
  simp [toTy]

end ObjectTy

namespace Assignability

/-- The obligations of which all have to be met. -/
def Requirement.obligations : Requirement → List Obligation
  | .all obligations => obligations
  | .someMember _ => []

section Search

variable {policy : Policy} {d : Declarations} {s t : ObjectTy}

theorem rule_objects (policy : Policy) (s t : ObjectTy) :
    rule policy s.toTy t.toTy =
      if s.toTy == t.toTy then .none else .all (objectRule policy s t).obligations :=
  rfl

theorem search_objects (policy : Policy) (d : Declarations) (depth : Nat) (s t : ObjectTy)
    (A : Assumptions) :
    search (rule policy) d (depth + 1) s.toTy t.toTy A =
      if s.toTy == t.toTy then .ok (.accepted, A)
      else judgeAll (search (rule policy) d depth) (objectRule policy s t).obligations A := by
  show judgeRequirement (search (rule policy) d depth) s.toTy t.toTy A
    (rule policy s.toTy t.toTy) = _
  rw [rule_objects]
  split <;> rfl

/-- A verdict on two objects is that of their obligations at any depth that is enough, or they are
equal. -/
theorem check_objects {setting : Setting} (hd : setting.declarations.WellFormed)
    (hs : s.toTy.WellFormed) (ht : t.toTy.WellFormed) {v : Verdict}
    (h : setting.check s.toTy t.toTy = .ok v) {depth : Nat}
    (hdepth : depthBound setting.declarations s.toTy t.toTy ≤ depth) :
    s.toTy == t.toTy ∧ v = .accepted ∨
      (s.toTy == t.toTy) = false ∧
        ∃ B, judgeAll (search (rule setting.policy) setting.declarations depth)
          (objectRule setting.policy s t).obligations [] = .ok (v, B) := by
  rw [check_eq_search hd hs ht (Nat.le_succ_of_le hdepth), search_objects] at h
  split at h
  · rename_i hequal
    exact Or.inl ⟨hequal, (Except.ok.inj h).symm⟩
  · rename_i hequal
    refine Or.inr ⟨Bool.not_eq_true _ ▸ hequal, ?_⟩
    cases hrun : judgeAll (search (rule setting.policy) setting.declarations depth)
        (objectRule setting.policy s t).obligations [] with
    | error fault =>
        rw [hrun] at h
        cases h
    | ok result =>
        rw [hrun] at h
        exact ⟨result.2, congrArg Except.ok (Prod.ext (Except.ok.inj h) rfl)⟩

end Search

section Equal

variable {policy : Policy} {s t : ObjectTy}

theorem objectFits_of_equal (h : Ty.Equal s.toTy t.toTy) : ObjectFits policy Ty.Equal s t := by
  have hcorresponds : Ty.Corresponds Ty.Equal s.toTy t.toTy := h.corresponds rfl rfl
  cases hcorresponds with
  | object hfields hindex =>
      exact objectFits_of_correspond (fun _ _ hab => hab) h.wellFormed h.wellFormed' hfields hindex

end Equal

section Relations

variable {setting : Setting} {R R' : Ty → Ty → Prop} {s t : ObjectTy}

theorem Upheld.or {d : Declarations} {F : Ty → Ty → Prop} (h : Upheld d F R) (h' : Upheld d F R') :
    Upheld d F fun a b => R a b ∨ R' a b := by
  rintro a b (hab | hab) hfa hfb
  · obtain ⟨hnamed, hF⟩ := h a b hab hfa hfb
    exact ⟨fun hn a' b' ha hb => Or.inl (hnamed hn a' b' ha hb), hF⟩
  · obtain ⟨hnamed, hF⟩ := h' a b hab hfa hfb
    exact ⟨fun hn a' b' ha hb => Or.inr (hnamed hn a' b' ha hb), hF⟩

theorem Tolerant.upheld (hR : Tolerant setting R) (hle : ∀ a b, R a b → R' a b) :
    Upheld setting.declarations (Fits setting.policy R') R := by
  intro a b hab hfa hfb
  obtain ⟨hnamed, hfits⟩ := hR a b hab hfa hfb
  exact ⟨hnamed, fun ha hb => (hfits ha hb).mono hle⟩

theorem Tolerant.or (hR : Tolerant setting R) (hR' : Tolerant setting R') :
    Tolerant setting fun a b => R a b ∨ R' a b :=
  Upheld.or (hR.upheld fun _ _ => Or.inl) (hR'.upheld fun _ _ => Or.inr)

theorem Tolerant.isAccepted_of_objectFits (hR : Tolerant setting R)
    (hd : setting.declarations.WellFormed) (hs : s.toTy.WellFormed) (ht : t.toTy.WellFormed)
    (hfits : ObjectFits setting.policy R s t) {v : Verdict}
    (h : setting.check s.toTy t.toTy = .ok v) : v = .accepted := by
  have hpair : Upheld setting.declarations
      (Fits setting.policy fun a b => R a b ∨ a = s.toTy ∧ b = t.toTy)
      fun a b => a = s.toTy ∧ b = t.toTy := by
    rintro _ _ ⟨rfl, rfl⟩ _ _
    refine ⟨fun hnamed => by simp [ObjectTy.toTy, Ty.isNamed] at hnamed, fun _ _ => ?_⟩
    exact .kind (t.toTy_ne_primitive _) (s.toTy_ne_primitive _)
      (.object (hfits.mono fun _ _ => Or.inl))
  have htolerant : Tolerant setting fun a b => R a b ∨ a = s.toTy ∧ b = t.toTy :=
    Upheld.or (hR.upheld fun _ _ => Or.inl) hpair
  exact eq_accepted_of_isAccepted (htolerant.isAccepted hd hs ht (Or.inr ⟨rfl, rfl⟩) h)

theorem assignable_objects_iff : Assignable setting s.toTy t.toTy ↔
    s.toTy == t.toTy ∨ ObjectFits setting.policy (Assignable setting) s t := by
  have hself : ∀ o : ObjectTy, setting.declarations.StandsFor o.toTy o.toTy := fun o =>
    Declarations.standsFor_self rfl rfl (by simp [ObjectTy.toTy])
  rw [assignable_iff_fits_structures (hself s) (hself t)]
  constructor
  · intro h
    cases h with
    | equal hequal => exact Or.inl hequal
    | always halways => simp [FitsAlways, ObjectTy.toTy] at halways
    | kind _ _ hkind =>
        cases hkind with
        | object hfits => exact Or.inr hfits
  · rintro (hequal | hfits)
    · exact .equal hequal
    · exact .kind (t.toTy_ne_primitive _) (s.toTy_ne_primitive _) (.object hfits)

theorem accepted_objects_iff (hd : setting.declarations.WellFormed) (hs : s.toTy.WellFormed)
    (ht : t.toTy.WellFormed) {v : Verdict} (h : setting.check s.toTy t.toTy = .ok v) :
    v = .accepted ↔
      ObjectFits setting.policy (fun a b => Ty.Equal a b ∨ Assignable setting a b) s t := by
  constructor
  · rintro rfl
    have hassignable := (isAccepted_iff_assignable hd hs ht h).mp rfl
    rcases assignable_objects_iff.mp hassignable with hequal | hfits
    · exact (objectFits_of_equal ⟨hs, ht, hequal⟩).mono fun _ _ => Or.inl
    · exact hfits.mono fun _ _ => Or.inr
  · intro hfits
    have htolerant := (tolerant_equal hd).or (tolerant_assignable setting)
    exact htolerant.isAccepted_of_objectFits hd hs ht hfits h

end Relations

end Assignability

end StructuralTypes
