import StructuralTypes.Proofs.Members

namespace StructuralTypes.Assignability

open Declarations Relation

/-- Members of members of a type come to "unknown", with no union on the way that equals `u`. -/
inductive MeetsUnknown (d : Declarations) (u : Ty) : Ty → Prop
  | unknown {t : Ty} (h : d.resolve t = .ok (.primitive "unknown")) : MeetsUnknown d u t
  | member {t m : Ty} {members : List Ty} (h : d.resolve t = .ok (.union members))
      (hne : (Ty.union members == u) = false) (hm : m ∈ members) (hmeets : MeetsUnknown d u m) :
      MeetsUnknown d u t

variable {setting : Setting} {members : List Ty} {m : Ty}

theorem not_assignable_of_meetsUnknown
    (h : MeetsUnknown setting.declarations (.union members) m) :
    ¬ Assignable setting m (.union members) := by
  induction h with
  | unknown hm =>
      intro hassignable
      have hfits := (assignable_iff_fits_structures ⟨_, hm, rfl, rfl⟩ (standsFor_union members)).mp
        hassignable
      simpa using fits_unknown_iff.mp hfits
  | member ht hne hm _ ih =>
      intro hassignable
      have hfits := (assignable_iff_fits_structures ⟨_, ht, rfl, rfl⟩ (standsFor_union members)).mp
        hassignable
      cases hfits with
      | equal hbeq => exact Bool.false_ne_true (hne.symm.trans hbeq)
      | always halways => simp [FitsAlways, Ty.expanded] at halways
      | kind _ _ hkind =>
          cases hkind with
          | unionSource hall => exact ih (hall _ hm)
          | unionTarget hunion => exact hunion _ rfl

/-- A type that the union leads to, as it is or resolved, against the union. -/
def BelowUnion (d : Declarations) (u s t : Ty) : Prop :=
  t = u ∧ ∃ n, TransGen d.HasMember u n ∧ ¬ MeetsUnknown d u n ∧ (s = n ∨ d.resolve n = .ok s)

/-- A structure that is no union, against a type that leads to it. -/
def BelowMember (d : Declarations) (s t : Ty) : Prop :=
  t.WellFormed ∧ ∃ n r, ReflTransGen d.HasMember t n ∧ d.resolve n = .ok r ∧ s = r.expanded ∧
    (∀ ms, r ≠ .union ms) ∧ r ≠ .primitive "unknown"

theorem BelowMember.resolve {s t t' : Ty} (hd : setting.declarations.WellFormed)
    (h : BelowMember setting.declarations s t) (ht' : setting.declarations.resolve t = .ok t') :
    BelowMember setting.declarations s t' := by
  obtain ⟨hwf, n, r, hleads, hr, rfl, hunion, hunknown⟩ := h
  refine ⟨hd.resolve hwf ht', ?_⟩
  rcases ReflTransGen.cases_head hleads with rfl | ⟨p, hp, hleads⟩
  · rw [hr] at ht'
    cases ht'
    exact ⟨t', t', .refl, resolve_of_not_named (isNamed_of_resolve hr), rfl, hunion, hunknown⟩
  · exact ⟨n, r, .head (hp.resolve ht') hleads, hr, rfl, hunion, hunknown⟩

theorem BelowMember.fits {R : Ty → Ty → Prop} {s t : Ty} (hd : setting.declarations.WellFormed)
    (hR : ∀ a b, BelowMember setting.declarations a b → R a b) (htn : t.isNamed = false)
    (h : BelowMember setting.declarations s t) :
    Fits setting.policy R s.expanded t.expanded := by
  obtain ⟨hwf, n, r, hleads, hr, rfl, hunion, hunknown⟩ := h
  rw [Ty.expanded_expanded]
  rcases ReflTransGen.cases_head hleads with rfl | ⟨p, hp, hpleads⟩
  · rw [resolve_of_not_named htn] at hr
    cases hr
    exact .equal (Ty.beq_refl hwf.expanded)
  · have hwfp := hp.wellFormed hd hwf
    obtain ⟨us, hus, hp⟩ := hp
    rw [resolve_of_not_named htn] at hus
    cases hus
    exact .kind (by simp [Ty.expanded]) (expanded_ne_primitive hunknown)
      (.unionTarget (expanded_ne_union hunion) hp
        (hR _ _ ⟨hwfp, n, r, hpleads, hr, rfl, hunion, hunknown⟩))

theorem BelowUnion.fits {R : Ty → Ty → Prop} {s : Ty} (hd : setting.declarations.WellFormed)
    (hu : (Ty.union members).WellFormed)
    (hR : ∀ a b, BelowUnion setting.declarations (.union members) a b → R a b)
    (hR' : ∀ a b, BelowMember setting.declarations a b → R a b) (hsn : s.isNamed = false)
    (h : BelowUnion setting.declarations (.union members) s (.union members)) :
    Fits setting.policy R s.expanded (.union members) := by
  obtain ⟨-, n, hleads, hmeets, hn⟩ := h
  have hs : setting.declarations.resolve n = .ok s := by
    rcases hn with rfl | hn
    · exact resolve_of_not_named hsn
    · exact hn
  by_cases hunion : ∃ us, s = .union us
  · obtain ⟨us, rfl⟩ := hunion
    cases hbeq : Ty.union us == .union members with
    | true => exact .equal hbeq
    | false =>
        refine .kind (by simp) (by simp [Ty.expanded]) (.unionSource fun k hk => ?_)
        refine hR _ _ ⟨rfl, k, ?_⟩
        exact ⟨hleads.tail ⟨us, hs, hk⟩, fun hk' => hmeets (.member hs hbeq hk hk'), Or.inl rfl⟩
  · -- a structure is tried against the member that leads to it
    have hunion' : ∀ us, s ≠ .union us := fun us hus => hunion ⟨us, hus⟩
    have hunknown : s ≠ .primitive "unknown" := by
      rintro rfl
      exact hmeets (.unknown hs)
    obtain ⟨p, hp, hleads⟩ := TransGen.head'_iff.mp hleads
    have hwf := hp.wellFormed hd hu
    obtain ⟨us, hus, hp⟩ := hp
    cases hus
    exact .kind (by simp) (expanded_ne_primitive hunknown)
      (.unionTarget (expanded_ne_union hunion') hp
        (hR' _ _ ⟨hwf, n, s, hleads, hs, rfl, hunion', hunknown⟩))

theorem tolerant_below (hd : setting.declarations.WellFormed)
    (hu : (Ty.union members).WellFormed) :
    Tolerant setting fun s t => BelowUnion setting.declarations (.union members) s t ∨
      BelowMember setting.declarations s t := by
  rintro s t (hbelow | hbelow) - -
  · obtain ⟨rfl, n, hleads, hmeets, hn⟩ := id hbelow
    refine ⟨fun hnamed s' t' hs' ht' => ?_, fun hsn _ => ?_⟩
    · cases ht'
      rcases hn with rfl | hn
      · exact Or.inl ⟨rfl, s, hleads, hmeets, Or.inr hs'⟩
      · rw [isNamed_of_resolve hn] at hnamed
        simp [Ty.isNamed] at hnamed
    · exact hbelow.fits hd hu (fun _ _ => Or.inl) (fun _ _ => Or.inr) hsn
  · refine ⟨fun _ s' t' hs' ht' => ?_, fun _ htn => hbelow.fits hd (fun _ _ => Or.inr) htn⟩
    obtain ⟨-, n, r, -, hr, rfl, -⟩ := id hbelow
    rw [resolve_of_not_named (by rw [Ty.isNamed_expanded, isNamed_of_resolve hr])] at hs'
    cases hs'
    exact Or.inr (hbelow.resolve hd ht')

/-- A member fits its union exactly when "unknown" is not met behind it. -/
theorem check_member (hd : setting.declarations.WellFormed) (hu : (Ty.union members).WellFormed)
    (hm : m ∈ members) {v : Verdict} (h : setting.check m (.union members) = .ok v) :
    v.isAccepted = true ↔ ¬ MeetsUnknown setting.declarations (.union members) m := by
  have hwf : m.WellFormed := hu.part hm
  constructor
  · intro hv hmeets
    exact not_assignable_of_meetsUnknown hmeets ((isAccepted_iff_assignable hd hwf hu h).mp hv)
  · intro hmeets
    obtain ⟨B, hrun⟩ := search_of_check_eq_ok h
    by_contra hv
    rw [Bool.not_eq_true] at hv
    have hbelow : BelowUnion setting.declarations (.union members) m (.union members) :=
      ⟨rfl, m, .single (hasMember_union hm), hmeets, Or.inl rfl⟩
    exact (tolerant_below hd hu).not_rejected hd hwf hu (by simp [Assumptions.WellFormed]) hrun hv
      (Or.inl hbelow)

/-- Figures, with a name behind a name and a union inside a union. -/
def figures : Declarations :=
  .ofList [
    ("Figure", .union [.named "Round", .object [("side", ⟨.number, false, false⟩)] none]),
    ("Round", .named "Circle"),
    ("Circle", .mapped [("radius", ⟨.number, true, false⟩)])]

theorem check_member_figures :
    ¬ MeetsUnknown figures (.union [.number, .named "Figure", .primitive "never"])
        (.named "Figure") ∧
      MeetsUnknown figures (.union [.named "Figure", .union [.string, .primitive "unknown"]])
        (.union [.string, .primitive "unknown"]) := by
  have hd : (Setting.mk {} figures).declarations.WellFormed := by decide
  constructor
  · have haccepted : Setting.check ⟨{}, figures⟩ (.named "Figure")
        (.union [.number, .named "Figure", .primitive "never"]) = .ok .accepted := rfl
    exact (check_member hd (by decide) (by simp) haccepted).mp rfl
  · have hrejected : ∃ v, Setting.check ⟨{}, figures⟩ (.union [.string, .primitive "unknown"])
        (.union [.named "Figure", .union [.string, .primitive "unknown"]]) = .ok v ∧
        v.isAccepted = false := ⟨_, rfl, rfl⟩
    obtain ⟨v, hv, hfalse⟩ := hrejected
    by_contra hmeets
    rw [(check_member hd (by decide) (by simp) hv).mpr hmeets] at hfalse
    cases hfalse

/-- "unknown" does not fit a union that it is a member of. -/
theorem check_unknown_member :
    Ty.primitive "unknown" ∈ [.primitive "unknown", .string] ∧
    ∃ v, Setting.check {} (.primitive "unknown") (.union [.primitive "unknown", .string]) = .ok v ∧
      v.isAccepted = false :=
  ⟨by simp, _, rfl, rfl⟩

end StructuralTypes.Assignability
