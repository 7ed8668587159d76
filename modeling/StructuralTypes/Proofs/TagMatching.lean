import StructuralTypes.Proofs.Resolvable
import StructuralTypes.Proofs.SelectionOrder
import StructuralTypes.Proofs.Structure

namespace StructuralTypes

open Assignability

namespace Declarations

variable {d : Declarations} {t u : Ty} {l x : Literal}

section Chains

theorem follow_of_follow {budget budget' : Nat} {chain chain' : List String} {name : String}
    {r : Ty} (h : d.follow budget chain name = .ok r) (hbudget : budget ≤ budget')
    (hchain : chain' ⊆ chain) : d.follow budget' chain' name = .ok r := by
  induction budget using Nat.strong_induction_on generalizing budget' chain chain' name with
  | _ budget ih =>
      unfold follow at h ⊢
      split at h
      · cases h
      · rename_i hnew
        have hnew' : ¬ chain'.contains name = true := by
          simpa using fun hmem => hnew (by simpa using hchain hmem)
        rw [if_neg hnew']
        split at h
        · cases h
        · cases budget with
          | zero => cases h
          | succ rest =>
              obtain ⟨rest', rfl⟩ : ∃ n, budget' = n + 1 := ⟨budget' - 1, by omega⟩
              apply ih rest (Nat.lt_succ_self rest) h (Nat.le_of_succ_le_succ hbudget)
              exact List.append_subset.mpr ⟨List.subset_append_of_subset_left _ hchain,
                List.subset_append_right _ _⟩
        · exact h

theorem resolve_of_target? {name : String} {r : Ty} (htarget : d.target? name = some t)
    (h : d.resolve (.named name) = .ok r) : d.resolve t = .ok r := by
  rcases follow_cases h with
    ⟨names, hresult⟩ | hresult | ⟨t', hnot, htarget', hresult⟩ | ⟨rest, next, hlt, htarget', hrest⟩
  · cases hresult
  · cases hresult
  · cases htarget.symm.trans htarget'
    cases hresult
    exact resolve_of_not_named hnot
  · cases htarget.symm.trans htarget'
    exact follow_of_follow hrest (Nat.le_of_lt hlt) (List.nil_subset _)

end Chains

section Literals

theorem LiteralOnly.cases (h : d.LiteralOnly t) :
    (∃ l, t = .literal l) ∨ (∃ name, t = .named name) ∨
      ∃ members, t = .union members ∧ ∀ m ∈ members, ∃ l, d.resolve m = .ok (.literal l) := by
  cases hnamed : t.isNamed with
  | true =>
      cases t with
      | named name => exact Or.inr (Or.inl ⟨name, rfl⟩)
      | _ => cases hnamed
  | false =>
      have hself := resolve_of_not_named (d := d) hnamed
      cases h with
      | literal ht =>
          cases hself.symm.trans ht
          exact Or.inl ⟨_, rfl⟩
      | union ht hmembers =>
          cases hself.symm.trans ht
          exact Or.inr (Or.inr ⟨_, rfl, hmembers⟩)

theorem LiteralOnly.of_target? {name : String} (h : d.LiteralOnly (.named name))
    (htarget : d.target? name = some t) : d.LiteralOnly t := by
  cases h with
  | literal ht => exact .literal (resolve_of_target? htarget ht)
  | union ht hmembers => exact .union (resolve_of_target? htarget ht) hmembers

theorem LiteralOnly.of_reachable {s v : Ty} (hs : d.LiteralOnly s) (ht : d.LiteralOnly t)
    (h : Reachable d s t v) : d.LiteralOnly v := by
  induction h with
  | source => exact hs
  | target => exact ht
  | part _ hp ih =>
      rcases ih.cases with ⟨l, rfl⟩ | ⟨name, rfl⟩ | ⟨members, rfl, hmembers⟩
      · cases hp
      · cases hp
      · obtain ⟨l, hl⟩ := hmembers _ hp
        exact .literal hl
  | expanded _ ih =>
      rcases ih.cases with ⟨l, rfl⟩ | ⟨name, rfl⟩ | ⟨members, rfl, -⟩
      · exact ih
      · exact ih
      · exact ih
  | declared _ hu ih => exact ih.of_target? hu

theorem LiteralOnly.judgeable (h : d.LiteralOnly t) : Judgeable d t := by
  have hok : (d.resolve t).isOk = true := by
    cases h with
    | literal ht => rw [ht]; rfl
    | union ht => rw [ht]; rfl
  rcases h.cases with ⟨l, rfl⟩ | ⟨name, rfl⟩ | ⟨members, rfl, -⟩
  · exact ⟨rfl, hok, by simp [keyIntegers]⟩
  · exact ⟨rfl, hok, by simp [keyIntegers]⟩
  · exact ⟨rfl, hok, by simp [keyIntegers]⟩

end Literals

theorem wellFormed_of_objectView (hd : d.WellFormed) {b : Ty} {o : ObjectTy} (hb : b.WellFormed)
    (h : d.objectView b = .ok (some o)) : o.toTy.WellFormed := by
  unfold objectView at h
  cases hr : d.resolve b with
  | error fault =>
      rw [hr] at h
      cases h
  | ok r =>
      rw [hr] at h
      have ho : r.expanded.object? = some o := Except.ok.inj h
      rw [← Ty.eq_toTy_of_object? ho]
      exact (hd.resolve hb hr).expanded

end Declarations

namespace Assignability

open Declarations

variable {setting : Setting} {t : Ty} {l x : Literal}

theorem fits_literal_iff {policy : Policy} {R : Ty → Ty → Prop} :
    Fits policy R (.literal l) (.literal x) ↔ l.same x = true := by
  constructor
  · intro h
    cases h with
    | equal hbeq =>
        cases Ty.alike_of_beq hbeq with
        | literal hsame => exact hsame
    | always halways => simp [FitsAlways] at halways
    | kind _ _ hkind => cases hkind
  · exact fun hsame => .equal (Ty.Alike.literal hsame).beq

theorem assignable_literal_iff (ht : setting.declarations.resolve t = .ok (.literal x)) :
    Assignable setting (.literal l) t ↔ l.same x = true := by
  rw [assignable_iff_fits_structures (standsFor_self rfl rfl (by simp)) ⟨_, ht, rfl, rfl⟩]
  exact fits_literal_iff

theorem assignable_literal_iff_allows (honly : setting.declarations.LiteralOnly t) :
    Assignable setting (.literal l) t ↔
      ∃ x, setting.declarations.Allows t x ∧ x.same l = true := by
  cases honly with
  | literal ht =>
      rw [assignable_literal_iff ht]
      constructor
      · exact fun hsame => ⟨_, .literal ht, Literal.same_symm hsame⟩
      · rintro ⟨x, hx | ⟨⟨members, hmembers, -⟩, -⟩, hsame⟩
        · cases ht.symm.trans hx
          exact Literal.same_symm hsame
        · cases ht.symm.trans hmembers
  | @union members ht hmembers =>
      have hstands : setting.declarations.StandsFor t (.union members) := ⟨_, ht, rfl, rfl⟩
      rw [assignable_iff_fits_structures (standsFor_self rfl rfl (by simp)) hstands,
        fits_union_iff (by simp) (by simp)]
      constructor
      · rintro ((hany | hnever) | ⟨m, hm, hfits⟩)
        · cases hany
        · cases hnever
        · obtain ⟨x, hx⟩ := hmembers m hm
          have hsame := (assignable_literal_iff hx).mp hfits
          exact ⟨x, .member ⟨_, ht, hm⟩ hx, Literal.same_symm hsame⟩
      · rintro ⟨x, hx | ⟨⟨members, hunion, hm⟩, hx⟩, hsame⟩
        · cases ht.symm.trans hx
        · cases ht.symm.trans hunion
          exact Or.inr ⟨_, hm, (assignable_literal_iff hx).mpr (Literal.same_symm hsame)⟩

theorem check_literal (hd : setting.declarations.WellFormed) (ht : t.WellFormed)
    (honly : setting.declarations.LiteralOnly t) (l : Literal) :
    ∃ v, setting.check (.literal l) t = .ok v ∧
      (v = .accepted ↔ ∃ x, setting.declarations.Allows t x ∧ x.same l = true) := by
  have hs : (Ty.literal l).WellFormed := (Built.literal l).wellFormed
  have hliteral : setting.declarations.LiteralOnly (.literal l) := .literal rfl
  obtain ⟨v, hv⟩ := exists_verdict hd hs ht fun u hu => (hliteral.of_reachable honly hu).judgeable
  refine ⟨v, hv, ?_⟩
  rw [← assignable_literal_iff_allows honly, ← isAccepted_iff_assignable hd hs ht hv]
  constructor
  · rintro rfl
    rfl
  · exact eq_accepted_of_isAccepted

end Assignability

namespace Narrowing

open Declarations

variable {setting : Setting} {d : Declarations} {u : Ty} {alts : List Ty}
  {views : List (Option ObjectTy)} {field : String} {l : Literal}
  {tags : List (Option (List Literal))} {matching : List Nat} {i : Nat}

/-- All alternatives have a tag of a given name. -/
def Tagged (d : Declarations) (alts : List Ty) (field : String) : Prop :=
  ∀ b ∈ alts, ∃ view, d.objectView b = .ok view ∧ d.HasTag view field

/-- The alternative at a place has a field, and a literal is accepted for the type of the field. -/
def AcceptsAt (setting : Setting) (alts : List Ty) (field : String) (l : Literal) (i : Nat) :
    Prop :=
  ∃ b o s, alts[i]? = some b ∧ setting.declarations.objectView b = .ok (some o) ∧
    o.get? field = some s ∧ setting.check (.literal l) s.type = .ok .accepted

section Single

theorem single_eq_chosen_iff {m : Ty} :
    single alts matching = .chosen m i ↔ alts[i]? = some m ∧ matching = [i] := by
  constructor
  · exact single_eq_chosen
  · rintro ⟨hm, rfl⟩
    simp only [single, hm]

theorem eq_singleton_iff (hnodup : matching.Nodup) :
    matching = [i] ↔ ∀ j, j ∈ matching ↔ j = i := by
  constructor
  · rintro rfl j
    exact List.mem_singleton
  · intro h
    match matching, hnodup, h with
    | [], _, h => exact absurd ((h i).mpr rfl) List.not_mem_nil
    | [a], _, h => rw [(h a).mp (List.mem_singleton_self a)]
    | a :: b :: rest, hnodup, h =>
        have ha := (h a).mp List.mem_cons_self
        have hb := (h b).mp (List.mem_cons_of_mem a List.mem_cons_self)
        simp [ha, hb] at hnodup

theorem single_of_two {i j : Nat} (hi : i ∈ matching) (hj : j ∈ matching) (hne : i ≠ j) :
    single alts matching = .failed .ambiguous matching := by
  match matching, hi, hj with
  | [a], hi, hj =>
      rw [List.mem_singleton] at hi hj
      exact absurd (hi.trans hj.symm) hne
  | _ :: _ :: _, _, _ => rfl

end Single

theorem places_untagged (hviews : d.objectViews alts = .ok views)
    (htags : d.tagsEach field views = .ok tags) :
    places Option.isNone tags = [] ↔ Tagged d alts field := by
  have hpairs := forall₂_comp (objectViews_eq_ok hviews) (tagsEach_eq_ok htags)
  rw [List.eq_nil_iff_forall_not_mem]
  constructor
  · intro h b hb
    obtain ⟨i, hi⟩ := List.mem_iff_getElem?.mp hb
    obtain ⟨tag, htag, view, hview, hliterals⟩ := getElem?_of_forall₂ hpairs hi
    refine ⟨view, hview, ?_⟩
    by_contra hnot
    exact h i (mem_places.mpr ⟨tag, htag, (isNone_tagLiterals? hliterals).mpr hnot⟩)
  · intro h i hi
    obtain ⟨tag, htag, hnone⟩ := mem_places.mp hi
    obtain ⟨b, hb, view, hview, hliterals⟩ := getElem?_of_forall₂ hpairs.flip htag
    obtain ⟨view', hview', htagged⟩ := h b (List.mem_of_getElem? hb)
    cases hview.symm.trans hview'
    exact (isNone_tagLiterals? hliterals).mp hnone htagged

theorem selectByTags_of_tagged (hviews : d.objectViews alts = .ok views)
    (htags : d.tagsEach field views = .ok tags) (h : Tagged d alts field) :
    selectByTags alts tags l =
      single alts (places (fun t => (t.getD []).any fun x => x.same l) tags) := by
  unfold selectByTags
  rw [(places_untagged hviews htags).mpr h]

theorem selectByTags_of_not_tagged (hviews : d.objectViews alts = .ok views)
    (htags : d.tagsEach field views = .ok tags) (h : ¬ Tagged d alts field) :
    selectByTags alts tags l = .failed .missingTag (places Option.isNone tags) := by
  rw [← places_untagged hviews htags] at h
  unfold selectByTags
  generalize places Option.isNone tags = untagged at h
  cases untagged with
  | nil => exact absurd rfl h
  | cons i rest => rfl

/-- The places that narrowing by a tag finds are those of the alternatives whose tags the literal
is accepted for. -/
theorem mem_matching_iff (hd : setting.declarations.WellFormed) (hwf : ∀ b ∈ alts, b.WellFormed)
    (hviews : setting.declarations.objectViews alts = .ok views)
    (htags : setting.declarations.tagsEach field views = .ok tags)
    (htagged : Tagged setting.declarations alts field) :
    i ∈ places (fun t => (t.getD []).any fun x => x.same l) tags ↔
      AcceptsAt setting alts field l i := by
  have hpairs := forall₂_comp (objectViews_eq_ok hviews) (tagsEach_eq_ok htags)
  have hslot : ∀ b o s, b ∈ alts → setting.declarations.objectView b = .ok (some o) →
      o.get? field = some s → s.type.WellFormed := by
    intro b o s hb ho hs
    have hobject := wellFormed_of_objectView hd (hwf b hb) ho
    exact hobject.part (Ty.mem_parts_of_mem_fields (Assoc.mem_of_lookup hs))
  rw [mem_places]
  constructor
  · rintro ⟨tag, htag, hany⟩
    obtain ⟨b, hb, view, hview, hliterals⟩ := getElem?_of_forall₂ hpairs.flip htag
    obtain ⟨o, s, x, rfl, hs, -, honly, hallows⟩ := (any_tagLiterals? hliterals).mp hany
    obtain ⟨v, hv, haccepted⟩ :=
      check_literal hd (hslot b o s (List.mem_of_getElem? hb) hview hs) honly l
    rw [haccepted.mpr ⟨x, hallows⟩] at hv
    exact ⟨b, o, s, hb, hview, hs, hv⟩
  · rintro ⟨b, o, s, hb, hview, hs, hcheck⟩
    obtain ⟨tag, htag, view, hview', hliterals⟩ := getElem?_of_forall₂ hpairs hb
    cases hview.symm.trans hview'
    obtain ⟨view', hview', o', s', ho', hs', hrequired, honly⟩ :=
      htagged b (List.mem_of_getElem? hb)
    cases hview.symm.trans hview'
    cases ho'
    cases hs.symm.trans hs'
    obtain ⟨v, hv, haccepted⟩ :=
      check_literal hd (hslot b o s (List.mem_of_getElem? hb) hview hs) honly l
    rw [hcheck] at hv
    cases hv
    obtain ⟨x, hallows⟩ := haccepted.mp rfl
    refine ⟨tag, htag, (any_tagLiterals? hliterals).mpr ?_⟩
    exact ⟨o, s, x, rfl, hs, hrequired, honly, hallows⟩

theorem select_tag_of_views (halts : setting.declarations.alternatives u = .ok alts)
    (hviews : setting.declarations.objectViews alts = .ok views)
    (htags : setting.declarations.tagsEach field views = .ok tags) (l : Literal) :
    setting.select u (.tag field l) = .ok (selectByTags alts tags l) := by
  simp only [Setting.select, outcome, halts, hviews, htags]
  rfl

/-- Narrowing by a tag agrees with assignability. It selects an alternative exactly when all
alternatives have the tag and this one is the only one whose tag the literal is accepted for; where
all have the tag it fails for the lack of such an alternative, or for several, and then names
them. -/
theorem select_tag_agrees_with_check (hd : setting.declarations.WellFormed) (hu : u.WellFormed)
    (hresolves : setting.declarations.Resolves u) (field : String) (l : Literal) :
    ∃ alts selection, setting.declarations.alternatives u = .ok alts ∧
      setting.select u (.tag field l) = .ok selection ∧
      (∀ m i, selection = .chosen m i ↔
        alts[i]? = some m ∧ Tagged setting.declarations alts field ∧
          ∀ j, AcceptsAt setting alts field l j ↔ j = i) ∧
      (Tagged setting.declarations alts field →
        ((∀ j, ¬ AcceptsAt setting alts field l j) → selection = .failed .noMatch []) ∧
        ∀ i j, i ≠ j → AcceptsAt setting alts field l i → AcceptsAt setting alts field l j →
          ∃ places, selection = .failed .ambiguous places ∧ places.Pairwise (· < ·) ∧
            ∀ k, k ∈ places ↔ AcceptsAt setting alts field l k) := by
  obtain ⟨alts, views, halts, hviews, hseen⟩ := hresolves.alternativeViews
  obtain ⟨tags, htags⟩ := hresolves.tagsEach hseen field
  have hwf : ∀ b ∈ alts, b.WellFormed := fun b hb =>
    (reachable_of_mem_alternatives .source halts hb).wellFormed hd hu hu
  refine ⟨alts, _, halts, select_tag_of_views halts hviews htags l, ?_, ?_⟩
  · intro m i
    by_cases htagged : Tagged setting.declarations alts field
    · rw [selectByTags_of_tagged hviews htags htagged, single_eq_chosen_iff,
        eq_singleton_iff (places_nodup _ _)]
      simp only [mem_matching_iff hd hwf hviews htags htagged, htagged, true_and]
    · rw [selectByTags_of_not_tagged hviews htags htagged]
      simp [htagged]
  · intro htagged
    have hmem := fun k => mem_matching_iff (i := k) (l := l) hd hwf hviews htags htagged
    rw [selectByTags_of_tagged hviews htags htagged]
    constructor
    · intro hnone
      have hempty : places (fun t => (t.getD []).any fun x => x.same l) tags = [] :=
        List.eq_nil_iff_forall_not_mem.mpr fun k hk => hnone k ((hmem k).mp hk)
      rw [hempty]
      rfl
    · intro i j hne hi hj
      exact ⟨_, single_of_two ((hmem i).mpr hi) ((hmem j).mpr hj) hne, places_pairwise _ _, hmem⟩

theorem select_tag_agrees_with_check_shapes :
    (∃ alts, shapes.alternatives (.named "Shape") = .ok alts ∧
      alts[0]? = some (.named "Circle") ∧ Tagged shapes alts "kind" ∧
      ∀ j, AcceptsAt ⟨{}, shapes⟩ alts "kind" (.text "disc") j ↔ j = 0) ∧
    ∃ places, Setting.select ⟨{}, shapes⟩ (.union [.named "Circle", kind "disc"])
        (.tag "kind" (.text "disc")) = .ok (.failed .ambiguous places) ∧
      places.Pairwise (· < ·) ∧
      ∀ k, k ∈ places ↔
        AcceptsAt ⟨{}, shapes⟩ [.named "Circle", kind "disc"] "kind" (.text "disc") k := by
  have hd : (Setting.mk {} shapes).declarations.WellFormed := by decide
  constructor
  · obtain ⟨alts, selection, halts, hselect, hchosen, -⟩ :=
      select_tag_agrees_with_check (u := .named "Shape") hd (by decide)
        (resolves_of_pool (by decide)) "kind" (.text "disc")
    have hcircle : selection = .chosen (.named "Circle") 0 := (Except.ok.inj hselect).symm
    obtain ⟨hzero, htagged, honly⟩ := (hchosen _ _).mp hcircle
    exact ⟨alts, halts, hzero, htagged, honly⟩
  · obtain ⟨alts, selection, halts, hselect, -, hfailed⟩ :=
      select_tag_agrees_with_check (u := .union [.named "Circle", kind "disc"]) hd (by decide)
        (resolves_of_pool (by decide)) "kind" (.text "disc")
    have hzero : AcceptsAt ⟨{}, shapes⟩ [.named "Circle", kind "disc"] "kind" (.text "disc") 0 :=
      ⟨_, _, _, rfl, rfl, rfl, rfl⟩
    have hone : AcceptsAt ⟨{}, shapes⟩ [.named "Circle", kind "disc"] "kind" (.text "disc") 1 :=
      ⟨_, _, _, rfl, rfl, rfl, rfl⟩
    have htagged : Tagged shapes [.named "Circle", kind "disc"] "kind" := by
      simp only [Tagged, List.forall_mem_cons]
      refine ⟨⟨_, rfl, _, _, rfl, rfl, rfl, .union rfl ?_⟩,
        ⟨_, rfl, _, _, rfl, rfl, rfl, .literal rfl⟩, by simp⟩
      simp only [List.forall_mem_cons]
      exact ⟨⟨_, rfl⟩, ⟨_, rfl⟩, by simp⟩
    cases (show Except.ok [.named "Circle", kind "disc"] = Except.ok alts from halts)
    obtain ⟨places, rfl, hplaces⟩ := (hfailed htagged).2 0 1 (by decide) hzero hone
    exact ⟨places, hselect, hplaces⟩

end Narrowing

end StructuralTypes
