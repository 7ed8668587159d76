import StructuralTypes.Proofs.Alternatives

namespace StructuralTypes.Assignability

open Declarations Relation

variable {setting : Setting} {s s' t x m : Ty}

theorem assignable_of_member (hx : setting.declarations.StandsFor s x)
    (hunion : ∀ ms, x ≠ .union ms) (hunknown : x ≠ .primitive "unknown")
    (hm : setting.declarations.HasMember t m) (h : Assignable setting s m) :
    Assignable setting s t := by
  obtain ⟨members, hmembers, hm⟩ := hm
  have ht : setting.declarations.StandsFor t (.union members) := ⟨_, hmembers, rfl, rfl⟩
  rw [assignable_iff_fits_structures hx ht, fits_union_iff hunion hunknown]
  exact Or.inr ⟨m, hm, (assignable_source_iff hx).mpr h⟩

theorem assignable_of_leads (hx : setting.declarations.StandsFor s x)
    (hunion : ∀ ms, x ≠ .union ms) (hunknown : x ≠ .primitive "unknown")
    (hleads : ReflTransGen setting.declarations.HasMember t m) (h : Assignable setting s m) :
    Assignable setting s t := by
  induction hleads using ReflTransGen.head_induction_on with
  | refl => exact h
  | head hm _ ih => exact assignable_of_member hx hunion hunknown hm ih

/-- Everything but a union and "unknown" fits a union that comes back to itself. -/
theorem assignable_of_endless (hx : setting.declarations.StandsFor s x)
    (hunion : ∀ ms, x ≠ .union ms) (hunknown : x ≠ .primitive "unknown")
    (h : setting.declarations.Endless t) : Assignable setting s t := by
  let R : Ty → Ty → Prop := fun a b =>
    setting.declarations.StandsFor a x ∧ setting.declarations.Endless b
  have hR : Supported setting R := by
    rintro a b ⟨ha, hb⟩
    obtain ⟨m, ⟨members, hmembers, hm⟩, hendless⟩ := hb.exists_member
    refine ⟨x, .union members, ha, ⟨_, hmembers, rfl, rfl⟩, ?_⟩
    exact .kind (by simp) hunknown (.unionTarget hunion hm (Or.inl ⟨ha.self, hendless⟩))
  exact hR.assignable ⟨hx, h⟩

theorem exists_alternative_of_assignable (hx : setting.declarations.StandsFor s x)
    (hunion : ∀ ms, x ≠ .union ms) (hany : x ≠ .primitive "any") (hnever : x ≠ .primitive "never")
    (hend : ¬ setting.declarations.Endless t) (h : Assignable setting s t) :
    ∃ a, ReflTransGen setting.declarations.HasMember t a ∧ setting.declarations.IsAlternative a ∧
      Assignable setting s a := by
  refine members_induction (P := fun u => Assignable setting s u →
    ∃ a, ReflTransGen setting.declarations.HasMember u a ∧ setting.declarations.IsAlternative a ∧
      Assignable setting s a) hend (fun u ih hu => ?_) h
  obtain ⟨x', y, hx', hy, hfits⟩ := assignable_iff_structures.mp hu
  cases hx.unique hx'
  by_cases hyunion : ∃ us, y = .union us
  · obtain ⟨us, rfl⟩ := hyunion
    have hunknown : x ≠ .primitive "unknown" := by
      rintro rfl
      simpa using fits_unknown_iff.mp hfits
    rcases (fits_union_iff hunion hunknown).mp hfits with htop | ⟨m, hm, hfits⟩
    · exact absurd htop (by simp [hany, hnever])
    · have hmember : setting.declarations.HasMember u m := ⟨us, hy.resolve_union, hm⟩
      obtain ⟨a, hleads, halternative, ha⟩ := ih m hmember ((assignable_source_iff hx).mp hfits)
      exact ⟨a, .head hmember hleads, halternative, ha⟩
  · obtain ⟨r, hr, -, rfl⟩ := hy
    refine ⟨u, .refl, ⟨r, hr, ?_⟩, hu⟩
    rintro us rfl
    exact hyunion ⟨us, rfl⟩

/-- A source that is no union fits a union target exactly when it fits one of the alternatives, or
when the target comes back to itself through names and unions alone. -/
theorem check_union_alternatives (hd : setting.declarations.WellFormed) (hs : s.WellFormed)
    (ht : t.WellFormed) (hs' : setting.declarations.resolve s = .ok s')
    (hunion : ∀ ms, s' ≠ .union ms) (hany : s' ≠ .primitive "any")
    (hnever : s' ≠ .primitive "never") {members alts : List Ty}
    (ht' : setting.declarations.resolve t = .ok (.union members)) {v : Verdict}
    (h : setting.check s t = .ok v) (halts : setting.declarations.alternatives t = .ok alts)
    (hall : ∀ a ∈ alts, ∃ w, setting.check s a = .ok w) :
    v.isAccepted = true ↔ s' ≠ .primitive "unknown" ∧
      (setting.declarations.Endless t ∨ ∃ a ∈ alts, setting.check s a = .ok .accepted) := by
  obtain ⟨-, -, r, -, hr, -, hforeign, -⟩ := resolves_of_check_eq_ok h
  cases hs'.symm.trans hr
  have hx : setting.declarations.StandsFor s s'.expanded := ⟨s', hs', hforeign, rfl⟩
  have hunion' := expanded_ne_union hunion
  have haccepted : ∀ a ∈ alts, (setting.check s a = .ok .accepted ↔ Assignable setting s a) := by
    intro a ha
    obtain ⟨w, hw⟩ := hall a ha
    have hwf := wellFormed_of_mem_alternatives hd ht ht' halts ha
    rw [← isAccepted_iff_assignable hd hs hwf hw, hw]
    constructor
    · intro heq
      cases heq
      rfl
    · intro haccepted
      rw [eq_accepted_of_isAccepted haccepted]
  rw [isAccepted_iff_assignable hd hs ht h]
  constructor
  · intro hassignable
    refine ⟨?_, ?_⟩
    · rintro rfl
      have hfits := (assignable_iff_fits_structures hx ⟨_, ht', rfl, rfl⟩).mp hassignable
      simpa [Ty.expanded] using fits_unknown_iff.mp hfits
    · by_cases hend : setting.declarations.Endless t
      · exact Or.inl hend
      · obtain ⟨a, hleads, halternative, ha⟩ := exists_alternative_of_assignable hx hunion'
          (expanded_ne_primitive hany) (expanded_ne_primitive hnever) hend hassignable
        have hleads' : TransGen setting.declarations.HasMember t a := by
          rcases reflTransGen_iff_eq_or_transGen.mp hleads with rfl | hleads
          · exact absurd ht' (halternative.not_union members)
          · exact hleads
        -- the alternative that was collected only equals the one that the source fits
        obtain ⟨c, hc, hca⟩ := exists_alternative_of_leads hd ht ht' halts hleads' halternative
        have hwfa := wellFormed_of_leads hd ht hleads
        have hwfc := wellFormed_of_mem_alternatives hd ht ht' halts hc
        refine Or.inr ⟨c, hc, (haccepted c hc).mpr ?_⟩
        exact ha.of_beq hd hs hs hwfa hwfc (Ty.beq_refl hs) (Ty.beq_symm hwfc hwfa hca)
  · rintro ⟨hunknown, hend | ⟨a, ha, hchecked⟩⟩
    · exact assignable_of_endless hx hunion' (expanded_ne_primitive hunknown) hend
    · exact assignable_of_leads hx hunion' (expanded_ne_primitive hunknown)
        (leads_of_mem_alternatives ht' halts ha).1.to_reflTransGen ((haccepted a ha).mp hchecked)

def identifiers : Declarations :=
  .ofList [
    ("Id", .union [.named "Key", .named "Code"]),
    ("Key", .union [.string, .literal (.bool true)]),
    ("Code", .number)]

theorem check_union_alternatives_identifiers :
    ∃ a ∈ [Ty.string, .literal (.bool true), .named "Code"],
      Setting.check ⟨{}, identifiers⟩ (.literal (.text "a")) a = .ok .accepted := by
  have hguarded : identifiers.Guarded :=
    guarded_of_rank (fun name => if name = "Id" then 1 else 0) (by decide)
  have hd : (Setting.mk {} identifiers).declarations.WellFormed := by decide
  have halts : identifiers.alternatives (.named "Id") =
      .ok [.string, .literal (.bool true), .named "Code"] := rfl
  have hall : ∀ a ∈ [Ty.string, .literal (.bool true), .named "Code"],
      ∃ w, Setting.check ⟨{}, identifiers⟩ (.literal (.text "a")) a = .ok w := by
    simp only [List.forall_mem_cons]
    exact ⟨⟨_, rfl⟩, ⟨_, rfl⟩, ⟨_, rfl⟩, by simp⟩
  have hiff := check_union_alternatives (s := .literal (.text "a")) (t := .named "Id") hd
    (by decide) (by decide) rfl (by simp) (by simp) (by simp) rfl rfl halts hall
  rcases (hiff.mp rfl).2 with hend | ha
  · exact absurd hend (hguarded.not_endless _)
  · exact ha

/-- A name that stands for a union of itself and numbers. -/
def selfUnion : Declarations :=
  .ofList [("N", .union [.named "N", .number])]

/-- A text fits that union, though numbers are its only alternative. -/
theorem check_string_selfUnion :
    Setting.check ⟨{}, selfUnion⟩ .string (.named "N") = .ok .accepted ∧
      selfUnion.alternatives (.named "N") = .ok [.number] ∧
      ∃ v, Setting.check ⟨{}, selfUnion⟩ .string .number = .ok v ∧ v.isAccepted = false :=
  ⟨rfl, rfl, _, rfl, rfl⟩

end StructuralTypes.Assignability
