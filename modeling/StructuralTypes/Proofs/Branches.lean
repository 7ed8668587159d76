import StructuralTypes.Proofs.Containment
import StructuralTypes.Proofs.Selection

namespace StructuralTypes

namespace Ty

/-- Types that can be members of a union on their own. -/
structure Lone (t : Ty) : Prop where
  wellFormed : t.WellFormed
  native : t.foreign? = none
  not_union : ∀ members, t ≠ .union members

theorem ownMembers_cases (t : Ty) :
    (∃ members, t = .union members) ∨ (∀ members, t ≠ .union members) ∧ t.ownMembers = [t] := by
  by_cases hunion : ∃ members, t = .union members
  · exact Or.inl hunion
  · rw [not_exists] at hunion
    exact Or.inr ⟨hunion, ownMembers_of_ne_union hunion⟩

theorem flatMap_ownMembers {members : List Ty} (h : ∀ m ∈ members, m.Lone) :
    members.flatMap ownMembers = members := by
  induction members with
  | nil => rfl
  | cons first rest ih =>
      rw [List.forall_mem_cons] at h
      rw [List.flatMap_cons, ownMembers_of_ne_union h.1.not_union, ih h.2]
      rfl

theorem flatUnion_of_lone {types members : List Ty} (hne : members ≠ [])
    (hmembers : types.flatMap ownMembers = members) (h : ∀ m ∈ members, m.Lone) :
    ∃ t, flatUnion types = .ok t ∧ t.WellFormed ∧ t.ownMembers = distinct members := by
  subst hmembers
  obtain ⟨t, ht⟩ := flatUnion_of_native hne fun m hm => (h m hm).native
  exact ⟨t, ht, wellFormed_of_flatUnion (fun m hm => (h m hm).wellFormed) ht,
    ownMembers_of_flatUnion (fun m hm => (h m hm).not_union) ht⟩

end Ty

namespace Declarations

open Relation

variable {d : Declarations} {s t m b u a x : Ty}

section OwnMembers

theorem leads_of_mem_ownMembers (h : b ∈ t.ownMembers) : ReflTransGen d.HasMember t b := by
  rcases t.ownMembers_cases with ⟨members, rfl⟩ | ⟨-, hself⟩
  · exact .single (hasMember_union h)
  · rw [hself, List.mem_singleton] at h
    rw [h]

theorem contained_of_ownMembers (hs : s.WellFormed) (ht : t.WellFormed) (hknown : d.Known t)
    (hnever : d.resolve t ≠ .ok (.primitive "never"))
    (h : ∀ m ∈ s.ownMembers, d.Contained m t) : d.Contained s t := by
  rcases s.ownMembers_cases with ⟨members, rfl⟩ | ⟨-, hself⟩
  · refine ⟨hs, ht, hknown, fun a x ha hx hx' => ?_, fun _ _ => hnever⟩
    rcases ReflTransGen.cases_head ha with rfl | ⟨m, ⟨ms, hms, hm⟩, hma⟩
    · exact absurd ((standsFor_union members).unique hx).symm (hx' members)
    · cases hms
      exact (h m hm).alternatives a x hma hx hx'
  · exact h s (by simp [hself])

theorem known_of_ownMembers (hknown : ∀ m ∈ t.ownMembers, d.Known m)
    (hunknown : ∀ m ∈ t.ownMembers, d.resolve m ≠ .ok (.primitive "unknown")) : d.Known t := by
  rcases t.ownMembers_cases with ⟨members, rfl⟩ | ⟨-, hself⟩
  · exact known_union hknown hunknown
  · exact hknown t (by simp [hself])

end OwnMembers

section Alternatives

variable {alts : List Ty}

theorem contained_of_mem_alternatives (hd : d.WellFormed) (ht : t.WellFormed) (hknown : d.Known t)
    (h : d.alternatives t = .ok alts) (hb : b ∈ alts) : d.Contained b t := by
  rcases alternatives_cases h with ⟨members, hmembers⟩ | ⟨r, hr, hunion, rfl⟩
  · obtain ⟨hleads, halternative⟩ := leads_of_mem_alternatives hmembers h hb
    exact contained_of_leads (wellFormed_of_mem_alternatives hd ht hmembers h hb) ht hknown
      halternative.not_union hleads.to_reflTransGen (.refl b)
  · rw [List.mem_singleton.mp hb]
    exact ((unfolds_of_resolve hr).interchangeable hd ht).symm.contained hd (hd.resolve ht hr) ht
      hknown

theorem exists_alternative_of_standsFor (hd : d.WellFormed) (ht : t.WellFormed)
    (h : d.alternatives t = .ok alts) (ha : ReflTransGen d.HasMember t a) (hx : d.StandsFor a x)
    (hunion : ∀ members, x ≠ .union members) : ∃ c ∈ alts, d.Interchangeable a c := by
  have halternative : d.IsAlternative a := by
    obtain ⟨r, hr, -, rfl⟩ := hx
    refine ⟨r, hr, ?_⟩
    rintro us rfl
    exact hunion us rfl
  rcases alternatives_cases h with ⟨members, hmembers⟩ | ⟨r, hr, hnot, rfl⟩
  · rcases reflTransGen_iff_eq_or_transGen.mp ha with rfl | hleads
    · exact absurd hmembers (halternative.not_union members)
    · obtain ⟨c, hc, hbeq⟩ :=
        exists_alternative_of_leads hd ht hmembers h hleads halternative
      have hequal : Ty.Equal c a := ⟨wellFormed_of_mem_alternatives hd ht hmembers h hc,
        wellFormed_of_leads hd ht ha, hbeq⟩
      exact ⟨c, hc, (interchangeable_of_equal hequal).symm⟩
  · rcases ReflTransGen.cases_head ha with rfl | ⟨m, ⟨members, hmembers, -⟩, -⟩
    · exact ⟨r, List.mem_singleton_self r, (unfolds_of_resolve hr).interchangeable hd ht⟩
    · rw [hr] at hmembers
      cases hmembers
      exact absurd rfl (hnot members)

theorem contained_of_alternatives (hd : d.WellFormed) (hs : s.WellFormed) (ht : t.WellFormed)
    (hknown : d.Known t) (hnever : d.resolve t ≠ .ok (.primitive "never"))
    (halts : d.alternatives s = .ok alts)
    (h : ∀ c ∈ alts, ∃ b ∈ t.ownMembers, d.Interchangeable c b) : d.Contained s t where
  wellFormed := hs
  wellFormed' := ht
  known := hknown
  alternatives := by
    intro a x ha hx hunion
    obtain ⟨c, hc, hac⟩ := exists_alternative_of_standsFor hd hs halts ha hx hunion
    obtain ⟨b, hb, hcb⟩ := h c hc
    exact ⟨b, leads_of_mem_ownMembers hb, hac.trans hcb⟩
  not_never := fun _ _ => hnever

theorem HasMember.native (hd : d.WellFormed) (ht : t.WellFormed) (h : d.HasMember t m) :
    m.foreign? = none := by
  obtain ⟨members, hmembers, hm⟩ := h
  exact (hd.resolve ht hmembers).wellMade.2.1 m hm

theorem known_of_mem_alternatives (hd : d.WellFormed) (ht : t.WellFormed) (hknown : d.Known t)
    (h : d.alternatives t = .ok alts) (hb : b ∈ alts) : d.Known b := by
  rcases alternatives_cases h with ⟨members, hmembers⟩ | ⟨r, hr, -, rfl⟩
  · exact hknown.leads (leads_of_mem_alternatives hmembers h hb).1.to_reflTransGen
  · rw [List.mem_singleton.mp hb]
    exact hknown.of_interchangeable hd (hd.resolve ht hr)
      ((unfolds_of_resolve hr).interchangeable hd ht)

end Alternatives

section ObjectView

variable {alts : List Ty} {o : ObjectTy}

theorem not_primitive_of_objectView (h : d.objectView m = .ok (some o)) (name : String) :
    d.resolve m ≠ .ok (.primitive name) := by
  intro hm
  simp only [objectView, hm] at h
  cases h

theorem not_primitive_of_alternatives (h : d.alternatives t = .ok alts) (hm : m ∈ alts)
    (hview : d.objectView m = .ok (some o)) (name : String) :
    d.resolve t ≠ .ok (.primitive name) := by
  intro ht
  rcases alternatives_cases h with ⟨members, hmembers⟩ | ⟨r, hr, -, rfl⟩
  · rw [ht] at hmembers
    cases hmembers
  · rw [ht] at hr
    cases hr
    rw [List.mem_singleton.mp hm] at hview
    cases hview

theorem lone_of_native (hd : d.WellFormed) (ht : t.WellFormed)
    (hnative : ∀ v, d.resolve t ≠ .ok (.foreign v)) (h : d.alternatives t = .ok alts)
    (hb : b ∈ alts) : b.Lone := by
  rcases alternatives_cases h with ⟨members, hmembers⟩ | ⟨r, hr, hunion, rfl⟩
  · obtain ⟨hleads, halternative⟩ := leads_of_mem_alternatives hmembers h hb
    obtain ⟨u, hu, hstep⟩ := TransGen.tail'_iff.mp hleads
    refine ⟨wellFormed_of_mem_alternatives hd ht hmembers h hb,
      hstep.native hd (wellFormed_of_leads hd ht hu), ?_⟩
    rintro us rfl
    exact halternative.not_union us rfl
  · rw [List.mem_singleton.mp hb]
    refine ⟨hd.resolve ht hr, ?_, hunion⟩
    cases r with
    | foreign v => exact absurd hr (hnative v)
    | _ => rfl

theorem lone_of_mem_alternatives (hd : d.WellFormed) (ht : t.WellFormed)
    (h : d.alternatives t = .ok alts) (hm : m ∈ alts) (hview : d.objectView m = .ok (some o))
    (hb : b ∈ alts) : b.Lone := by
  refine lone_of_native hd ht (fun v hv => ?_) h hb
  rcases alternatives_cases h with ⟨members, hmembers⟩ | ⟨r, hr, -, rfl⟩
  · cases hmembers.symm.trans hv
  · cases hr.symm.trans hv
    rw [List.mem_singleton.mp hm] at hview
    cases hview

theorem not_unknown_of_mem_alternatives (hknown : d.Known t) (h : d.alternatives t = .ok alts)
    (hm : m ∈ alts) (hview : d.objectView m = .ok (some o)) (hb : b ∈ alts) :
    d.resolve b ≠ .ok (.primitive "unknown") := by
  rcases alternatives_cases h with ⟨members, hmembers⟩ | ⟨r, hr, -, rfl⟩
  · exact hknown.not_unknown (leads_of_mem_alternatives hmembers h hb).1
  · rw [List.mem_singleton] at hm hb
    subst hm hb
    exact not_primitive_of_objectView hview "unknown"

end ObjectView

theorem remainder_of_uncertain {alts left : List Ty} {test : Test}
    (halts : d.alternatives t = .ok alts)
    (hleft : Narrowing.uncertain d test alts = .ok left) (hsub : left.Sublist alts)
    (hlone : ∀ b ∈ left, b.Lone) :
    ∃ rest, d.remainder t test = .ok rest ∧ rest.toList.flatMap Ty.ownMembers = left ∧
      ∀ r, rest = some r → r.WellFormed := by
  simp only [remainder, halts, hleft]
  cases left with
  | nil => exact ⟨none, rfl, rfl, by simp⟩
  | cons b others =>
      obtain ⟨r, hr, hwf, hown⟩ :=
        Ty.flatUnion_of_lone (by simp) (Ty.flatMap_ownMembers hlone) hlone
      rw [Ty.distinct_eq_self ((alternatives_pairwise halts).sublist hsub)] at hown
      refine ⟨some r, ?_, ?_, ?_⟩
      · simp only [hr]
        rfl
      · simpa using hown
      · rintro r' ⟨⟩
        exact hwf

end Declarations

namespace Narrowing

open Declarations

/-- The two branches taken together. -/
def joined (m : Ty) : Option Ty → Except Fault Ty
  | none => .ok m
  | some r => Ty.flatUnion [m, r]

theorem joined_eq_ok {m : Ty} {rest : Option Ty} {left : List Ty} (hm : m.Lone)
    (hlone : ∀ b ∈ left, b.Lone) (h : rest.toList.flatMap Ty.ownMembers = left) :
    ∃ w, joined m rest = .ok w ∧ w.WellFormed ∧ w.ownMembers = Ty.distinct (m :: left) := by
  have hself := Ty.ownMembers_of_ne_union hm.not_union
  cases rest with
  | none =>
      subst h
      exact ⟨m, rfl, hm.wellFormed, hself⟩
  | some r =>
      refine Ty.flatUnion_of_lone (by simp) ?_ (List.forall_mem_cons.mpr ⟨hm, hlone⟩)
      simpa [hself] using h

/-- A type is contained in an object among its alternatives together with the others. -/
theorem contained_joined {d : Declarations} {u m w : Ty} {o : ObjectTy}
    {alts left : List Ty} (hd : d.WellFormed) (hu : u.WellFormed) (hknown : d.Known u)
    (halts : d.alternatives u = .ok alts) (hview : d.objectView m = .ok (some o)) (hm : m ∈ alts)
    (hleft : left ⊆ alts) (hcover : ∀ c ∈ alts, c ∈ m :: left) (hw : w.WellFormed)
    (hown : w.ownMembers = Ty.distinct (m :: left)) : d.Contained u w := by
  have hlone : ∀ b ∈ alts, b.Lone := fun b => lone_of_mem_alternatives hd hu halts hm hview
  have hmem : ∀ b ∈ w.ownMembers, b ∈ alts := by
    intro b hb
    rw [hown] at hb
    rcases List.mem_cons.mp (Ty.mem_of_mem_distinct hb) with rfl | hb
    · exact hm
    · exact hleft hb
  have hnever : d.resolve w ≠ .ok (.primitive "never") := by
    rcases w.ownMembers_cases with ⟨members, rfl⟩ | ⟨-, hself⟩
    · rintro ⟨⟩
    · -- a single member is the first one, which is an object
      rw [hself, Ty.distinct] at hown
      rw [(List.cons.inj hown).1]
      exact not_primitive_of_objectView hview "never"
  have hknown' : d.Known w := known_of_ownMembers
    (fun b hb => known_of_mem_alternatives hd hu hknown halts (hmem b hb))
    (fun b hb => not_unknown_of_mem_alternatives hknown halts hm hview (hmem b hb))
  refine contained_of_alternatives hd hu hw hknown' hnever halts fun c hc => ?_
  have hwf : ∀ b ∈ m :: left, b.WellFormed :=
    List.forall_mem_cons.mpr ⟨(hlone m hm).wellFormed, fun b hb => (hlone b (hleft hb)).wellFormed⟩
  obtain ⟨b, hb, hbeq⟩ := Ty.exists_mem_distinct hwf (hcover c hc)
  rw [← hown] at hb
  have hequal : Ty.Equal b c :=
    ⟨(hlone b (hmem b hb)).wellFormed, (hlone c hc).wellFormed, hbeq⟩
  exact ⟨b, hb, (interchangeable_of_equal hequal).symm⟩

open Assignability

/-- The selected alternative and what is left make up the type: every other alternative is left,
nothing else is, and no verdict says that one of the two does not fit the type or that the type does
not fit the two together. -/
theorem select_partition {setting : Setting} {u m : Ty} {i : Nat} {test : Test}
    (hd : setting.declarations.WellFormed) (hu : u.WellFormed)
    (hknown : setting.declarations.Known u) (h : setting.select u test = .ok (.chosen m i)) :
    ∃ alts rest, setting.declarations.alternatives u = .ok alts ∧
      setting.declarations.remainder u test = .ok rest ∧ alts[i]? = some m ∧
      (∀ j b, j ≠ i → alts[j]? = some b → ∃ r, rest = some r ∧ b ∈ r.ownMembers) ∧
      (∀ r, rest = some r → r.ownMembers.Sublist alts) ∧
      (∀ v, Judged setting m u v → v.isAccepted = true) ∧
      (∀ r v, rest = some r → Judged setting r u v → v.isAccepted = true) ∧
      ∃ w, joined m rest = .ok w ∧ ∀ v, Judged setting u w v → v.isAccepted = true := by
  obtain ⟨alts, left, halts, hm, ⟨o, hview⟩, hleft, hsub, hkept⟩ := select_branches h
  have hmem : m ∈ alts := List.mem_of_getElem? hm
  have hlone : ∀ b ∈ alts, b.Lone := fun b => lone_of_mem_alternatives hd hu halts hmem hview
  have hlone' : ∀ b ∈ left, b.Lone := fun b hb => hlone b (hsub.subset hb)
  obtain ⟨rest, hrest, hown, hwf⟩ := remainder_of_uncertain halts hleft hsub hlone'
  obtain ⟨w, hw, hwfw, hownw⟩ := joined_eq_ok (hlone m hmem) hlone' hown
  have hsome : ∀ r, rest = some r → r.ownMembers = left := by
    rintro r rfl
    simpa using hown
  have hcover : ∀ c ∈ alts, c ∈ m :: left := by
    intro c hc
    obtain ⟨j, hj⟩ := List.mem_iff_getElem?.mp hc
    by_cases hji : j = i
    · rw [hji, hm] at hj
      cases hj
      exact List.mem_cons_self
    · exact List.mem_cons_of_mem m (hkept j c hji hj)
  have hcontained : ∀ b ∈ alts, setting.declarations.Contained b u := fun b =>
    contained_of_mem_alternatives hd hu hknown halts
  have htolerant := tolerant_contained hd
  refine ⟨alts, rest, halts, hrest, hm, ?_, ?_, ?_, ?_, w, hw, ?_⟩
  · intro j b hji hb
    have hb' := hkept j b hji hb
    rw [← hown, List.mem_flatMap] at hb'
    obtain ⟨r, hr, hbr⟩ := hb'
    exact ⟨r, Option.mem_toList.mp hr, hbr⟩
  · intro r hr
    rw [hsome r hr]
    exact hsub
  · intro v hv
    exact htolerant.isAccepted_of_judged hd (hlone m hmem).wellFormed hu (hcontained m hmem) hv
  · intro r v hr hv
    refine htolerant.isAccepted_of_judged hd (hwf r hr) hu ?_ hv
    refine contained_of_ownMembers (hwf r hr) hu hknown
      (not_primitive_of_alternatives halts hmem hview "never") fun b hb => hcontained b ?_
    rw [hsome r hr] at hb
    exact hsub.subset hb
  · intro v hv
    refine htolerant.isAccepted_of_judged hd hu hwfw ?_ hv
    exact contained_joined hd hu hknown halts hview hmem hsub.subset hcover hwfw hownw

def kind (tag : String) : Ty :=
  .object [("kind", ⟨.literal (.text tag), false, false⟩)] none

/-- Shapes, which are round or shapes again. A circle has two tags. -/
def shapes : Declarations :=
  .ofList [
    ("Shape", .union [.named "Round", .named "Shape", kind "square"]),
    ("Round", .union [.named "Circle", kind "ellipse"]),
    ("Circle", .object [("kind",
      ⟨.union [.literal (.text "circle"), .literal (.text "disc")], false, false⟩)] none)]

/-- An ellipse is nothing else, so it is not left; a circle and a square are. -/
theorem select_partition_shapes :
    let ellipse : Test := .tag "kind" (.text "ellipse")
    let left : Ty := .union [.named "Circle", kind "square"]
    Setting.select ⟨{}, shapes⟩ (.named "Shape") ellipse = .ok (.chosen (kind "ellipse") 1) ∧
      shapes.remainder (.named "Shape") ellipse = .ok (some left) ∧
      ∃ w v, joined (kind "ellipse") (some left) = .ok w ∧
        Setting.check ⟨{}, shapes⟩ (.named "Shape") w = .ok v ∧ v.isAccepted = true := by
  intro ellipse left
  have hselect : Setting.select ⟨{}, shapes⟩ (.named "Shape") ellipse =
      .ok (.chosen (kind "ellipse") 1) := rfl
  have hrest : shapes.remainder (.named "Shape") ellipse = .ok (some left) := rfl
  have hd : (Setting.mk {} shapes).declarations.WellFormed := by decide
  have hknown : shapes.Known (.named "Shape") := known_of_pool (by decide)
  obtain ⟨-, rest, -, hrest', -, -, -, -, -, w, hw, haccepted⟩ :=
    select_partition hd (by decide) hknown hselect
  cases hrest.symm.trans hrest'
  have hw' : joined (kind "ellipse") (some left) =
      .ok (.union [kind "ellipse", .named "Circle", kind "square"]) := rfl
  obtain rfl := Except.ok.inj (hw.symm.trans hw')
  have hv : ∃ v, Setting.check ⟨{}, shapes⟩ (.named "Shape")
      (.union [kind "ellipse", .named "Circle", kind "square"]) = .ok v := ⟨_, rfl⟩
  obtain ⟨v, hv⟩ := hv
  exact ⟨hselect, hrest, _, v, hw, hv, haccepted v (Or.inl hv)⟩

end Narrowing

end StructuralTypes
