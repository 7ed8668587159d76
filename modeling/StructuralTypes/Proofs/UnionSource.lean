import StructuralTypes.Proofs.Transparency

namespace StructuralTypes.Assignability

open Declarations

variable {setting : Setting} {s t m y z : Ty} {members : List Ty}

theorem Transported.member (hd : setting.declarations.WellFormed)
    (hknown : setting.declarations.Known t)
    (hmembers : setting.declarations.resolve s = .ok (.union members)) (hm : m ∈ members)
    (hz : setting.declarations.StandsFor m z) (hy : setting.declarations.StandsFor t y)
    (h : Transported setting s t) : Transported setting m t := by
  obtain ⟨hs, ht⟩ := h.wellFormed
  have hx : setting.declarations.StandsFor s (.union members) := ⟨_, hmembers, rfl, rfl⟩
  have hwf : m.WellFormed := (hx.wellFormed hd hs).part hm
  have hty := hy.interchangeable hd ht
  have hxy : Transported setting (.union members) y :=
    h.of_interchangeable hd (hx.interchangeable hd hs) hty
  cases hxy.fits hd hx.self hy.self with
  | atom hatom => cases hatom
  | always halways =>
      have htop : y = .primitive "any" ∨ y = .primitive "unknown" := by
        simpa [FitsAlways] using halways
      refine .assignable ⟨hwf, .refl m⟩ ⟨⟨ht, .refl t⟩, hknown⟩ ?_
      rw [assignable_iff_fits_structures hz hy]
      exact .always (htop.imp_right Or.inl)
  | kind _ _ hkind =>
      cases hkind with
      | unionSource hall => exact (hall m hm).of_interchangeable hd (.refl m) hty.symm
      | unionTarget hunion => exact absurd rfl (hunion members)

/-- A union is assignable to what all its members are assignable to, unless that is "never". -/
theorem assignable_of_members (hmembers : setting.declarations.resolve s = .ok (.union members))
    (hy : setting.declarations.StandsFor t y) (hnever : y ≠ .primitive "never")
    (hall : ∀ m ∈ members, Assignable setting m t) : Assignable setting s t := by
  rw [assignable_iff_fits_structures ⟨_, hmembers, rfl, rfl⟩ hy]
  refine .kind hnever (by simp [Ty.expanded]) (.unionSource fun m hm => ?_)
  exact (assignable_target_iff hy).mpr (hall m hm)

theorem standsFor_of_check {v : Verdict} (h : setting.check s t = .ok v) :
    ∃ x y, setting.declarations.StandsFor s x ∧ setting.declarations.StandsFor t y := by
  obtain ⟨-, -, s', t', hs', ht', hfs', hft'⟩ := resolves_of_check_eq_ok h
  exact ⟨_, _, ⟨s', hs', hfs', rfl⟩, ⟨t', ht', hft', rfl⟩⟩

theorem Judged.assignable {v : Verdict} (hd : setting.declarations.WellFormed) (hs : s.WellFormed)
    (ht : t.WellFormed) (hy : setting.declarations.StandsFor t y) (h : Judged setting s t v)
    (hv : v.isAccepted = true) : Assignable setting s t := by
  rcases h with h | ⟨rfl, -⟩
  · exact (isAccepted_iff_assignable hd hs ht h).mp hv
  · rw [assignable_iff_fits_structures hy hy]
    exact .equal (Ty.beq_refl (hy.wellFormed hd hs))

/-- A union is accepted exactly when each of its members is accepted on its own, where the target
does not stand for "never" and no union in it has "unknown" as a member. -/
theorem check_union_source (hd : setting.declarations.WellFormed) (hs : s.WellFormed)
    (ht : t.WellFormed) (hknown : setting.declarations.Known t)
    (hmembers : setting.declarations.resolve s = .ok (.union members))
    (hnever : setting.declarations.resolve t ≠ .ok (.primitive "never")) {v : Verdict}
    (h : Judged setting s t v) {w : Ty → Verdict}
    (hall : ∀ m ∈ members, Judged setting m t (w m)) :
    v.isAccepted = true ↔ ∀ m ∈ members, (w m).isAccepted = true := by
  have hwf : ∀ m ∈ members, m.WellFormed := fun m hm => (hd.resolve hs hmembers).part hm
  constructor
  · intro hv m hm
    have htransported := (h.isAccepted_iff_transported hd hs ht hknown).mp hv
    rcases hall m hm with hcheck | ⟨-, hself⟩
    · obtain ⟨z, y, hz, hy⟩ := standsFor_of_check hcheck
      rw [(hall m hm).isAccepted_iff_transported hd (hwf m hm) ht hknown]
      exact htransported.member hd hknown hmembers hm hz hy
    · exact isAccepted_of_checkSelf hself
  · intro haccepted
    rcases h with hcheck | ⟨-, hself⟩
    · obtain ⟨x, y, -, hy⟩ := standsFor_of_check hcheck
      have hnever' : y ≠ .primitive "never" := by
        rintro rfl
        exact hnever hy.resolve_primitive
      rw [isAccepted_iff_assignable hd hs ht hcheck]
      exact assignable_of_members hmembers hy hnever' fun m hm =>
        (hall m hm).assignable hd (hwf m hm) ht hy (haccepted m hm)
    · exact isAccepted_of_checkSelf hself

def crossedPair (f g : String) : Ty :=
  .object [("f", ⟨.named f, false, false⟩), ("g", ⟨.named g, false, false⟩)] none

/-- Trees from parts that each fit. And a union of two pairs, of which the first fits, but only
after it was assumed in vain that "P" fits "Q": the second would fit if that were still assumed. -/
theorem check_union_source_crossed :
    (∃ v, Setting.check ⟨{}, trees⟩ (.union [.named "Bud", .mapped branch]) (.named "Tree") =
        .ok v ∧ v.isAccepted = true) ∧
      crossedSetting.check (crossedPair "A" "P")
        (.union [crossedPair "B" "Q", crossedPair "A" "P"]) = .ok .accepted ∧
      ∃ v, crossedSetting.check (.union [crossedPair "A" "P", crossedPair "B" "P"])
          (.union [crossedPair "B" "Q", crossedPair "A" "P"]) = .ok v ∧ v.isAccepted = false := by
  refine ⟨?_, rfl, ?_⟩
  · have hd : (Setting.mk {} trees).declarations.WellFormed := by decide
    have hv : ∃ v, Setting.check ⟨{}, trees⟩ (.union [.named "Bud", .mapped branch])
        (.named "Tree") = .ok v := ⟨_, rfl⟩
    have hall : ∀ m ∈ [Ty.named "Bud", .mapped branch],
        Judged ⟨{}, trees⟩ m (.named "Tree") .accepted := by
      simp only [List.forall_mem_cons]
      exact ⟨Or.inl rfl, Or.inl rfl, by simp⟩
    have hnever : trees.resolve (.named "Tree") ≠ .ok (.primitive "never") := nofun
    obtain ⟨v, hv⟩ := hv
    exact ⟨v, hv, (check_union_source hd (by decide) (by decide) (known_of_pool (by decide)) rfl
      hnever (Or.inl hv) hall).mpr fun _ _ => rfl⟩
  · have hd : crossedSetting.declarations.WellFormed := by decide
    have hv : ∃ v, crossedSetting.check (.union [crossedPair "A" "P", crossedPair "B" "P"])
        (.union [crossedPair "B" "Q", crossedPair "A" "P"]) = .ok v := ⟨_, rfl⟩
    have hw : ∃ w : Ty → Verdict, (∀ m ∈ [crossedPair "A" "P", crossedPair "B" "P"],
        Judged crossedSetting m (.union [crossedPair "B" "Q", crossedPair "A" "P"]) (w m)) ∧
        (w (crossedPair "B" "P")).isAccepted = false := by
      refine ⟨fun m => ((crossedSetting.check m
        (.union [crossedPair "B" "Q", crossedPair "A" "P"])).toOption).getD .accepted, ?_, rfl⟩
      simp only [List.forall_mem_cons]
      exact ⟨Or.inl rfl, Or.inl rfl, by simp⟩
    have hnever : crossed.resolve (.union [crossedPair "B" "Q", crossedPair "A" "P"]) ≠
        .ok (.primitive "never") := nofun
    obtain ⟨v, hv⟩ := hv
    obtain ⟨w, hall, hfalse⟩ := hw
    refine ⟨v, hv, ?_⟩
    rw [← Bool.not_eq_true, check_union_source hd (by decide) (by decide)
      (known_of_pool (by decide)) rfl hnever (Or.inl hv) hall]
    intro haccepted
    rw [haccepted _ (by simp)] at hfalse
    cases hfalse

end StructuralTypes.Assignability
