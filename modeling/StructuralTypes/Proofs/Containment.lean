import StructuralTypes.Proofs.Plain
import StructuralTypes.Proofs.Unfolding

namespace StructuralTypes

namespace Declarations

open Relation

variable {d : Declarations} {s t a b m x y : Ty}

/-- A part of the structure that a type stands for. -/
def HasPart (d : Declarations) (t p : Ty) : Prop :=
  ∃ x, d.StandsFor t x ∧ p ∈ x.parts

theorem HasMember.standsFor (h : d.HasMember t m) :
    ∃ members, d.StandsFor t (.union members) ∧ m ∈ members := by
  obtain ⟨members, hmembers, hm⟩ := h
  exact ⟨members, ⟨_, hmembers, rfl, rfl⟩, hm⟩

theorem HasMember.hasPart (h : d.HasMember t m) : d.HasPart t m := by
  obtain ⟨members, hmembers, hm⟩ := h.standsFor
  exact ⟨.union members, hmembers, hm⟩

theorem HasPart.wellFormed (hd : d.WellFormed) (ht : t.WellFormed) (h : d.HasPart t m) :
    m.WellFormed := by
  obtain ⟨x, hx, hm⟩ := h
  exact (hx.wellFormed hd ht).part hm

theorem reachable_of_parts (h : ReflTransGen d.HasPart t m) :
    Assignability.Reachable d t t m := by
  induction h with
  | refl => exact .source
  | tail _ hstep ih =>
      obtain ⟨x, ⟨r, hr, -, rfl⟩, hm⟩ := hstep
      exact .part (.expanded (ih.resolve hr)) hm

section Interchangeable

theorem Interchangeable.exists_part (hd : d.WellFormed) (ht : t.WellFormed)
    (h : d.Interchangeable s t) (hb : d.HasPart t b) :
    ∃ a, d.HasPart s a ∧ d.Interchangeable a b := by
  obtain ⟨y, hy, hb⟩ := hb
  obtain ⟨x, hx, hxy⟩ := (h.linked hd).back y hy
  obtain ⟨a, ha, hab⟩ := hxy.exists_part (hy.wellFormed hd ht) hb
  exact ⟨a, ⟨x, hx, ha⟩, hab⟩

theorem Interchangeable.exists_member (hd : d.WellFormed) (h : d.Interchangeable s t)
    (hb : d.HasMember t b) : ∃ a, d.HasMember s a ∧ d.Interchangeable a b := by
  obtain ⟨members, hmembers, hb⟩ := hb.standsFor
  obtain ⟨x, hx, hxy⟩ := (h.linked hd).back _ hmembers
  cases hxy with
  | union _ back =>
      obtain ⟨a, ha, hab⟩ := back b hb
      exact ⟨a, ⟨_, hx.resolve_union, ha⟩, hab⟩

theorem Interchangeable.exists_leads (hd : d.WellFormed) (h : d.Interchangeable s t)
    (hb : ReflTransGen d.HasMember t b) :
    ∃ a, ReflTransGen d.HasMember s a ∧ d.Interchangeable a b := by
  induction hb with
  | refl => exact ⟨s, .refl, h⟩
  | tail _ hstep ih =>
      obtain ⟨a, ha, hab⟩ := ih
      obtain ⟨a', ha', hab'⟩ := hab.exists_member hd hstep
      exact ⟨a', ha.tail ha', hab'⟩

theorem Interchangeable.exists_reached (hd : d.WellFormed) (ht : t.WellFormed)
    (h : d.Interchangeable s t) (hb : ReflTransGen d.HasPart t b) :
    b.WellFormed ∧ ∃ a, ReflTransGen d.HasPart s a ∧ d.Interchangeable a b := by
  induction hb with
  | refl => exact ⟨ht, s, .refl, h⟩
  | tail _ hstep ih =>
      obtain ⟨hwf, a, ha, hab⟩ := ih
      obtain ⟨a', ha', hab'⟩ := hab.exists_part hd hwf hstep
      exact ⟨hstep.wellFormed hd hwf, a', ha.tail ha', hab'⟩

theorem Interchangeable.resolve_primitive {name : String} (hd : d.WellFormed)
    (h : d.Interchangeable s t) (hs : d.resolve s = .ok (.primitive name)) :
    d.resolve t = .ok (.primitive name) := by
  obtain ⟨y, hy, hxy⟩ := (h.linked hd).forth _ ⟨_, hs, rfl, rfl⟩
  cases hxy
  exact hy.resolve_primitive

end Interchangeable

section Known

/-- No union that is reached from a type, from part to part and through names, has a member that
stands for "unknown". -/
def Known (d : Declarations) (t : Ty) : Prop :=
  ∀ u m, ReflTransGen d.HasPart t u → d.HasMember u m → d.resolve m ≠ .ok (.primitive "unknown")

theorem Known.part (h : d.Known t) (hm : d.HasPart t m) : d.Known m :=
  fun u n hu => h u n (.head hm hu)

theorem Known.leads (h : d.Known t) (hm : ReflTransGen d.HasMember t m) : d.Known m := by
  induction hm with
  | refl => exact h
  | tail _ hstep ih => exact ih.part hstep.hasPart

theorem Known.not_unknown (h : d.Known t) (hm : TransGen d.HasMember t m) :
    d.resolve m ≠ .ok (.primitive "unknown") := by
  obtain ⟨u, hu, hstep⟩ := TransGen.tail'_iff.mp hm
  exact h.leads hu u m .refl hstep

theorem known_union {members : List Ty} (hknown : ∀ m ∈ members, d.Known m)
    (hunknown : ∀ m ∈ members, d.resolve m ≠ .ok (.primitive "unknown")) :
    d.Known (.union members) := by
  intro u n hu hn
  rcases ReflTransGen.cases_head hu with rfl | ⟨m, ⟨x, hx, hm⟩, hmu⟩
  · obtain ⟨ms, hms, hn⟩ := hn
    cases hms
    exact hunknown n hn
  · cases (standsFor_union members).unique hx
    exact hknown m hm u n hmu hn

theorem Known.of_interchangeable (hd : d.WellFormed) (ht : t.WellFormed)
    (hst : d.Interchangeable s t) (h : d.Known s) : d.Known t := by
  intro u n hu hn
  obtain ⟨-, w, hw, hwu⟩ := hst.exists_reached hd ht hu
  obtain ⟨a, ha, han⟩ := hwu.exists_member hd hn
  exact fun hunknown => h w a hw ha (han.symm.resolve_primitive hd hunknown)

/-- No member of a type stands for "unknown". -/
def knowsMembers (d : Declarations) : Ty → Bool
  | .union members => members.all fun m =>
    match d.resolve m with
    | .ok (.primitive name) => name != "unknown"
    | _ => true
  | _ => true

theorem known_of_pool (h : ∀ u ∈ Assignability.pool d t t, d.knowsMembers u = true) :
    d.Known t := by
  rintro u n hu ⟨members, hmembers, hn⟩ hunknown
  have hall := h _ ((reachable_of_parts hu).resolve hmembers).mem_pool
  simp only [knowsMembers, List.all_eq_true] at hall
  simpa [hunknown] using hall n hn

end Known

section Contained

/-- Every alternative of a type is, up to interchangeable types, an alternative of another. A union
is not contained in "never", which has none. -/
structure Contained (d : Declarations) (s t : Ty) : Prop where
  wellFormed : s.WellFormed
  wellFormed' : t.WellFormed
  known : d.Known t
  alternatives : ∀ a x, ReflTransGen d.HasMember s a → d.StandsFor a x →
    (∀ members, x ≠ .union members) → ∃ b, ReflTransGen d.HasMember t b ∧ d.Interchangeable a b
  not_never : ∀ members, d.resolve s = .ok (.union members) → d.resolve t ≠ .ok (.primitive "never")

theorem Interchangeable.contained (hd : d.WellFormed) (hs : s.WellFormed) (ht : t.WellFormed)
    (hknown : d.Known t) (h : d.Interchangeable s t) : d.Contained s t where
  wellFormed := hs
  wellFormed' := ht
  known := hknown
  alternatives := fun a _ ha _ _ => by
    obtain ⟨b, hb, hba⟩ := h.symm.exists_leads hd ha
    exact ⟨b, hb, hba.symm⟩
  not_never := fun members hmembers hnever => by
    have hs := h.symm.resolve_primitive hd hnever
    rw [hmembers] at hs
    cases hs

theorem Contained.of_interchangeable {s' t' : Ty} (hd : d.WellFormed)
    (hss : d.Interchangeable s s') (htt : d.Interchangeable t t') (h : d.Contained s t) :
    d.Contained s' t' where
  wellFormed := hss.wellFormed_iff.mp h.wellFormed
  wellFormed' := htt.wellFormed_iff.mp h.wellFormed'
  known := h.known.of_interchangeable hd (htt.wellFormed_iff.mp h.wellFormed') htt
  alternatives := by
    intro a' x' ha' hx' hunion'
    obtain ⟨a, ha, haa⟩ := hss.exists_leads hd ha'
    obtain ⟨x, hx, hxx⟩ := (haa.linked hd).back x' hx'
    have hunion : ∀ members, x ≠ .union members := by
      rintro members rfl
      cases hxx
      exact hunion' _ rfl
    obtain ⟨b, hb, hab⟩ := h.alternatives a x ha hx hunion
    obtain ⟨b', hb', hbb⟩ := htt.symm.exists_leads hd hb
    exact ⟨b', hb', (haa.symm.trans hab).trans hbb.symm⟩
  not_never := by
    intro members' hmembers' hnever
    obtain ⟨x, hx, hxx⟩ := (hss.linked hd).back _ ⟨_, hmembers', rfl, rfl⟩
    cases hxx
    exact h.not_never _ hx.resolve_union (htt.symm.resolve_primitive hd hnever)

theorem Contained.member (h : d.Contained s t) (hm : d.HasMember s m) (hwf : m.WellFormed) :
    d.Contained m t where
  wellFormed := hwf
  wellFormed' := h.wellFormed'
  known := h.known
  alternatives := fun a x ha => h.alternatives a x (.head hm ha)
  not_never := by
    obtain ⟨members, hmembers, -⟩ := hm
    exact fun _ _ => h.not_never members hmembers

theorem contained_of_leads (hs : s.WellFormed) (ht : t.WellFormed) (hknown : d.Known t)
    (hunion : ∀ members, d.resolve s ≠ .ok (.union members)) (hb : ReflTransGen d.HasMember t b)
    (hsb : d.Interchangeable s b) : d.Contained s t where
  wellFormed := hs
  wellFormed' := ht
  known := hknown
  alternatives := by
    intro a _ ha _ _
    rcases ReflTransGen.cases_head ha with rfl | ⟨m, ⟨members, hmembers, -⟩, -⟩
    · exact ⟨b, hb, hsb⟩
    · exact absurd hmembers (hunion members)
  not_never := fun members hmembers => absurd hmembers (hunion members)

end Contained

end Declarations

namespace Assignability

open Declarations Relation

variable {setting : Setting} {R : Ty → Ty → Prop} {s t x y : Ty}

theorem fits_of_interchangeable (hd : setting.declarations.WellFormed)
    (hR : ∀ a b, setting.declarations.Contained a b → R a b)
    (hx : setting.declarations.StandsFor x x) (hy : setting.declarations.StandsFor y y)
    (hunion : ∀ members, x ≠ .union members) (h : setting.declarations.Contained x y)
    (hxy : setting.declarations.Interchangeable x y) : FitsByParts setting.policy R x y := by
  obtain ⟨y', hy', hcorresponds⟩ := (hxy.linked hd).forth x hx
  cases hy.unique hy'
  refine fits_of_corresponds hR h.wellFormed h.wellFormed' hunion (hcorresponds.mono_parts ?_)
  exact fun a ha b hb hab => hab.contained hd (h.wellFormed.part ha) (h.wellFormed'.part hb)
    (h.known.part ⟨y, hy, hb⟩)

/-- One step from a structure to one that it is contained in: members are taken one by one, and any
other structure goes to the member that leads to its like. -/
theorem fits_of_contained (hd : setting.declarations.WellFormed)
    (hR : ∀ a b, setting.declarations.Contained a b → R a b)
    (hx : setting.declarations.StandsFor x x) (hy : setting.declarations.StandsFor y y)
    (h : setting.declarations.Contained x y) : FitsByParts setting.policy R x y := by
  by_cases hunion : ∃ members, x = .union members
  · obtain ⟨members, rfl⟩ := hunion
    refine .kind ?_ (by simp) (.unionSource fun m hm => ?_)
    · rintro rfl
      exact h.not_never members rfl rfl
    · exact hR m y (h.member (hasMember_union hm) (h.wellFormed.part hm))
  · have hunion' : ∀ members, x ≠ .union members := fun members hmembers =>
      hunion ⟨members, hmembers⟩
    obtain ⟨b, hb, hxb⟩ := h.alternatives x x .refl hx hunion'
    rcases ReflTransGen.cases_head hb with rfl | ⟨m, hm, hmb⟩
    · exact fits_of_interchangeable hd hR hx hy hunion' h hxb
    · have hunknown : x ≠ .primitive "unknown" := by
        rintro rfl
        exact h.known.not_unknown (.head' hm hmb) (hxb.resolve_primitive hd rfl)
      have hresolve : ∀ members, setting.declarations.resolve x ≠ .ok (.union members) := by
        intro members hmembers
        rw [resolve_of_not_named hx.isNamed_eq_false] at hmembers
        cases hmembers
        exact hunion' members rfl
      have hcontained := contained_of_leads h.wellFormed (hm.wellFormed hd h.wellFormed')
        (h.known.part hm.hasPart) hresolve hmb hxb
      obtain ⟨members, hmembers, hm⟩ := hm
      rw [resolve_of_not_named hy.isNamed_eq_false] at hmembers
      cases hmembers
      exact .kind (by simp) hunknown (.unionTarget hunion' hm (hR x m hcontained))

theorem upheld_of_structures {d : Declarations} {F : Ty → Ty → Prop}
    (hunfolds : ∀ s t s' t', R s t → d.Unfolds s s' → d.Unfolds t t' → R s' t')
    (hfits : ∀ x y, R x y → d.StandsFor x x → d.StandsFor y y → F x y) : Upheld d F R := by
  intro s t h hfs hft
  constructor
  · intro _ s' t' hs' ht'
    exact hunfolds s t s' t' h (unfolds_of_resolve hs') (unfolds_of_resolve ht')
  · intro hsn htn
    have hx : d.StandsFor s s.expanded := ⟨s, resolve_of_not_named hsn, hfs, rfl⟩
    have hy : d.StandsFor t t.expanded := ⟨t, resolve_of_not_named htn, hft, rfl⟩
    exact hfits _ _ (hunfolds s t _ _ h (unfolds_expanded s) (unfolds_expanded t)) hx.self hy.self

/-- A type that is contained in another is never rejected. -/
theorem tolerant_contained (hd : setting.declarations.WellFormed) :
    Tolerant setting setting.declarations.Contained := by
  refine (upheld_of_structures (fun s t s' t' h hss htt => ?_) fun x y h hx hy => ?_).tolerant
  · exact h.of_interchangeable hd (hss.interchangeable hd h.wellFormed)
      (htt.interchangeable hd h.wellFormed')
  · exact fits_of_contained hd (fun _ _ => id) hx hy h

end Assignability

end StructuralTypes
