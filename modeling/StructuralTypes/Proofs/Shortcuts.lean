import StructuralTypes.Proofs.Transparency

namespace StructuralTypes.Assignability

open Declarations

/-- The rules with equality asked only of types with nothing inside. -/
def partsRule (policy : Policy) (source target : Ty) : Requirement :=
  if isAtom source && source == target then .none else structuralRule policy source target

section Rules

variable {policy : Policy} {R : Ty → Ty → Prop}

theorem partsRule_settles (s t : Ty) :
    (partsRule policy s t).Settles R s (FitsByParts policy R s t) := by
  unfold partsRule
  split
  · rename_i hatom
    rw [Bool.and_eq_true] at hatom
    exact (settles_nil (.atom hatom.1 hatom.2)).all
  · rename_i hatom
    rw [Bool.and_eq_true, not_and] at hatom
    refine (structuralRule_settles s t).congr ⟨?_, fun h => ?_⟩
    · rintro (h | ⟨hnever, hunknown, h⟩)
      · exact .always h
      · exact .kind hnever hunknown h
    · cases h with
      | atom hs h => exact absurd h (hatom hs)
      | always h => exact Or.inl h
      | kind hnever hunknown h => exact Or.inr ⟨hnever, hunknown, h⟩

theorem inward_partsRule (policy : Policy) : Inward (partsRule policy) := by
  intro s t a b h
  unfold partsRule at h
  split at h
  · exact absurd h not_asks_none
  · rename_i hatom
    refine structuralRule_asks (fun hs => ?_) h
    simpa [hs] using hatom

theorem sound_partsRule (policy : Policy) : Sound policy (partsRule policy) :=
  ⟨inward_partsRule policy, fun _ s t hmet => ((partsRule_settles s t).holds hmet).fits⟩

end Rules

section Verdicts

variable {setting : Setting} {s t : Ty}

/-- A verdict of the search by parts, at whatever depth it is reached. -/
def JudgedByParts (setting : Setting) (s t : Ty) (v : Verdict) : Prop :=
  ∃ depth B, search (partsRule setting.policy) setting.declarations depth s t [] = .ok (v, B)

theorem JudgedByParts.isAccepted_iff_transported {v : Verdict}
    (hd : setting.declarations.WellFormed) (hs : s.WellFormed) (ht : t.WellFormed)
    (hknown : setting.declarations.Known t) (h : JudgedByParts setting s t v) :
    v.isAccepted = true ↔ Transported setting s t := by
  obtain ⟨depth, B, hrun⟩ := h
  constructor
  · intro hv
    rw [eq_accepted_of_isAccepted hv] at hrun
    exact .assignable ⟨hs, .refl s⟩ ⟨⟨ht, .refl t⟩, hknown⟩
      (assignable_of_search_accepted (sound_partsRule setting.policy) hd hs ht hrun)
  · intro htransported
    by_contra hv
    rw [Bool.not_eq_true] at hv
    exact (upheld_transported hd).not_rejected (inward_partsRule setting.policy)
      (fun x y => (partsRule_settles x y).fails) hd hs ht (by simp [Assumptions.WellFormed]) hrun hv
      htransported

/-- Without the shortcuts for a type against itself and for equal types the verdicts are the same,
where no union has "unknown" as a member, and equal types are still accepted. -/
theorem check_byParts (hd : setting.declarations.WellFormed) (hs : s.WellFormed)
    (ht : t.WellFormed) (hknown : setting.declarations.Known t) {v' : Verdict}
    (h' : JudgedByParts setting s t v') :
    (∀ v, Judged setting s t v → v.isAccepted = v'.isAccepted) ∧
      (s == t → v'.isAccepted = true) := by
  have hiff := h'.isAccepted_iff_transported hd hs ht hknown
  constructor
  · intro v h
    rw [Bool.eq_iff_iff, h.isAccepted_iff_transported hd hs ht hknown, hiff]
  · intro hequal
    have hst : setting.declarations.Interchangeable s t := interchangeable_of_equal ⟨hs, ht, hequal⟩
    exact hiff.mpr (.contained (hst.contained hd hs ht hknown))

theorem check_byParts_trees :
    (∃ v v', Setting.check ⟨{}, trees⟩ (.union [.named "Leaf", .mapped branch])
          (.union [.mapped branch, .named "Leaf"]) = .ok v ∧
        JudgedByParts ⟨{}, trees⟩ (.union [.named "Leaf", .mapped branch])
          (.union [.mapped branch, .named "Leaf"]) v' ∧
        v.isAccepted = v'.isAccepted ∧ v'.isAccepted = true) ∧
      ∃ v v', Setting.check ⟨{}, trees⟩ (.named "Tree") leaf = .ok v ∧
        JudgedByParts ⟨{}, trees⟩ (.named "Tree") leaf v' ∧
        v.isAccepted = v'.isAccepted ∧ v'.isAccepted = false := by
  have hd : (Setting.mk {} trees).declarations.WellFormed := by decide
  constructor
  · have hv : ∃ v, Setting.check ⟨{}, trees⟩ (.union [.named "Leaf", .mapped branch])
        (.union [.mapped branch, .named "Leaf"]) = .ok v := ⟨_, rfl⟩
    have hv' : ∃ v, JudgedByParts ⟨{}, trees⟩ (.union [.named "Leaf", .mapped branch])
        (.union [.mapped branch, .named "Leaf"]) v := ⟨_, 12, _, rfl⟩
    obtain ⟨v, hv⟩ := hv
    obtain ⟨v', hv'⟩ := hv'
    obtain ⟨hagree, hequal⟩ := check_byParts hd (by decide) (by decide)
      (known_of_pool (by decide)) hv'
    exact ⟨v, v', hv, hv', hagree v (Or.inl hv), hequal (by decide)⟩
  · have hv : ∃ v, Setting.check ⟨{}, trees⟩ (.named "Tree") leaf = .ok v := ⟨_, rfl⟩
    have hv' : ∃ v, JudgedByParts ⟨{}, trees⟩ (.named "Tree") leaf v ∧ v.isAccepted = false :=
      ⟨_, ⟨12, _, rfl⟩, rfl⟩
    obtain ⟨v, hv⟩ := hv
    obtain ⟨v', hv', hfalse⟩ := hv'
    obtain ⟨hagree, -⟩ := check_byParts hd (by decide) (by decide)
      (known_of_pool (by decide)) hv'
    exact ⟨v, v', hv, hv', hagree v (Or.inl hv), hfalse⟩

end Verdicts

end StructuralTypes.Assignability
