import StructuralTypes.Proofs.Exclusion
import StructuralTypes.Proofs.TagNames

namespace StructuralTypes

open Relation

namespace Narrowing

open Declarations

variable {setting : Setting} {u : Ty}

theorem exists_refusalTags {alts : List Ty} (hresolves : setting.declarations.Resolves u)
    (halts : setting.declarations.alternatives u = .ok alts) :
    ∃ names, refusalTags setting u alts = .ok names := by
  unfold refusalTags
  split
  · rename_i hrefuses
    apply hresolves.tagNames halts
    rintro rfl
    simp at hrefuses
  · exact ⟨[], rfl⟩

theorem exists_selection (hresolves : setting.declarations.Resolves u) (test : Test) :
    ∃ selection, setting.select u test = .ok selection := by
  obtain ⟨alts, views, halts, hviews, hseen⟩ := hresolves.alternativeViews
  cases test with
  | tag field wanted =>
      obtain ⟨tags, htags⟩ := hresolves.tagsEach hseen field
      exact ⟨_, select_tag_of_views halts hviews htags wanted⟩
  | present field =>
      obtain ⟨names, hnames⟩ := exists_refusalTags hresolves halts
      by_cases hnone : names = []
      · subst hnone
        exact ⟨_, select_present_of_no_tags hnames halts hviews field⟩
      · exact ⟨_, select_present_of_tags hnames hnone halts hviews field⟩

end Narrowing

namespace Declarations

variable {d : Declarations} {u : Ty} {alts : List Ty}

theorem exists_remainder (hd : d.WellFormed) (hu : u.WellFormed) (hresolves : d.Resolves u)
    (hnative : ∀ v, d.resolve u ≠ .ok (.foreign v)) (test : Test) :
    ∃ rest, d.remainder u test = .ok rest := by
  obtain ⟨alts, halts⟩ := hresolves.alternatives
  have hdecided : ∀ b ∈ alts, d.Decided test b := fun b hb =>
    hresolves.decided (reachable_of_mem_alternatives .source halts hb) test
  have hsub : (alts.filter fun b => ¬ d.Certain test b).Sublist alts := List.filter_sublist
  obtain ⟨rest, hrest, -⟩ := remainder_of_uncertain halts (uncertain_eq_filter hdecided) hsub
    fun b hb => lone_of_native hd hu hnative halts (hsub.subset hb)
  exact ⟨rest, hrest⟩

theorem exists_alternative_iff (hd : d.WellFormed) (hu : u.WellFormed)
    (halts : d.alternatives u = .ok alts) :
    alts ≠ [] ↔ ∃ b, ReflTransGen d.HasMember u b ∧ d.IsAlternative b := by
  rcases alternatives_cases halts with ⟨members, hmembers⟩ | ⟨r, hr, hunion, rfl⟩
  · constructor
    · intro hne
      obtain ⟨b, hb⟩ := List.exists_mem_of_ne_nil alts hne
      obtain ⟨hleads, halternative⟩ := leads_of_mem_alternatives hmembers halts hb
      exact ⟨b, hleads.to_reflTransGen, halternative⟩
    · rintro ⟨b, hleads, halternative⟩
      rcases reflTransGen_iff_eq_or_transGen.mp hleads with rfl | hleads
      · exact absurd hmembers (halternative.not_union members)
      · obtain ⟨c, hc, -⟩ :=
          exists_alternative_of_leads hd hu hmembers halts hleads halternative
        exact List.ne_nil_of_mem hc
  · constructor
    · exact fun _ => ⟨u, .refl, r, hr, hunion⟩
    · exact fun _ => List.cons_ne_nil r []

theorem tagNames_of_no_alternative (halts : d.alternatives u = .ok []) :
    d.tagNames u = .error .noAlternative := by
  simp only [tagNames, halts, objectViews]

/-- Selecting and excluding return, whatever the policy and the test. The tag names of a type are
found exactly when it has an alternative: when it leads to nothing but unions there is no first
alternative to take them from. -/
theorem narrowing_returns (hd : d.WellFormed) (hu : u.WellFormed) (hresolves : d.Resolves u)
    (hnative : ∀ v, d.resolve u ≠ .ok (.foreign v)) :
    (∀ policy test, ∃ selection, Setting.select ⟨policy, d⟩ u test = .ok selection) ∧
      (∀ test, ∃ rest, d.remainder u test = .ok rest) ∧
      ((∃ names, d.tagNames u = .ok names) ↔
        ∃ b, ReflTransGen d.HasMember u b ∧ d.IsAlternative b) ∧
      ((∀ b, ReflTransGen d.HasMember u b → ¬ d.IsAlternative b) →
        d.tagNames u = .error .noAlternative) := by
  obtain ⟨alts, halts⟩ := hresolves.alternatives
  have hiff := exists_alternative_iff hd hu halts
  have herror : alts = [] → d.tagNames u = .error .noAlternative := by
    rintro rfl
    exact tagNames_of_no_alternative halts
  refine ⟨fun policy test => ?_, exists_remainder hd hu hresolves hnative, ?_, fun hnone => ?_⟩
  · have hresolves' : (Setting.mk policy d).declarations.Resolves u := hresolves
    exact Narrowing.exists_selection hresolves' test
  · rw [← hiff]
    constructor
    · rintro ⟨names, hnames⟩ hempty
      cases hnames.symm.trans (herror hempty)
    · exact hresolves.tagNames halts
  · apply herror
    by_contra hne
    obtain ⟨b, hleads, halternative⟩ := hiff.mp hne
    exact hnone b hleads halternative

/-- A union whose only member is the union again. -/
def hollow : Declarations :=
  .ofList [("Hollow", .union [.named "Hollow"])]

/-- Nothing can be selected from a hollow union and nothing is left of it, but its tag names are
asked of an alternative that it does not have. -/
theorem tagNames_hollow :
    hollow.WellFormed ∧ hollow.Resolves (.named "Hollow") ∧
      hollow.NativeMembers (.named "Hollow") ∧
      hollow.alternatives (.named "Hollow") = .ok [] ∧
      hollow.tagNames (.named "Hollow") = .error .noAlternative :=
  ⟨by decide, resolves_of_pool (by decide), nativeMembers_of_pool (by decide), rfl, rfl⟩

open Narrowing in
theorem narrowing_returns_shapes :
    (∃ selection, Setting.select ⟨{}, shapes⟩ (.named "Shape") (.present "kind") =
      .ok selection) ∧
    (∃ rest, shapes.remainder (.named "Shape") (.present "kind") = .ok rest) ∧
    ∃ names, shapes.tagNames (.named "Shape") = .ok names := by
  have hd : shapes.WellFormed := by decide
  have hresolves : shapes.Resolves (.named "Shape") := resolves_of_pool (by decide)
  have hnative := nativeMembers_of_pool (d := shapes) (u := .named "Shape") (by decide)
  obtain ⟨hselect, hremainder, htags, -⟩ :=
    narrowing_returns hd (by decide) hresolves (hnative _ .refl)
  have hsquare : ReflTransGen shapes.HasMember (.named "Shape") (kind "square") :=
    .single ⟨_, rfl, by simp⟩
  exact ⟨hselect {} (.present "kind"), hremainder (.present "kind"),
    htags.mpr ⟨_, hsquare, _, rfl, by simp [kind]⟩⟩

end Declarations

end StructuralTypes
