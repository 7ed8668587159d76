import StructuralTypes.Proofs.TagNames

namespace StructuralTypes

open Relation Assignability

namespace Declarations

variable {d : Declarations} {t u m : Ty} {l : Literal} {ls : List Literal}

/-- A union that has a union among its members. -/
def Nested (d : Declarations) (t : Ty) : Prop :=
  ∃ m us, d.HasMember t m ∧ d.resolve m = .ok (.union us)

/-- The literals that a type allows, if its alternatives all stand for literals. -/
def deepLiterals? (d : Declarations) (t : Ty) : Except Fault (Option (List Literal)) :=
  ((d.alternatives t).bind d.resolveEach).map fun ts => ts.mapM Ty.literal?

theorem deepLiterals?_eq_some (h : d.deepLiterals? t = .ok (some ls)) :
    ∃ alts, d.alternatives t = .ok alts ∧
      List.Forall₂ (fun b l => d.resolve b = .ok (.literal l)) alts ls := by
  unfold deepLiterals? at h
  cases halts : d.alternatives t with
  | error fault =>
      rw [halts] at h
      cases h
  | ok alts =>
      simp only [halts, Except.bind] at h
      cases hts : d.resolveEach alts with
      | error fault =>
          rw [hts] at h
          cases h
      | ok ts =>
          rw [hts] at h
          have hpairs := resolveEach_eq_ok hts
          rw [Ty.mapM_literal?_eq_some.mp (Except.ok.inj h), List.forall₂_map_right_iff] at hpairs
          exact ⟨alts, rfl, hpairs⟩

section Flat

variable (hd : d.WellFormed) (ht : t.WellFormed) (hls : d.deepLiterals? t = .ok (some ls))
include hd ht hls

theorem literal_of_member {members : List Ty} (hmembers : d.resolve t = .ok (.union members))
    (hm : m ∈ members) (halternative : d.IsAlternative m) :
    ∃ x y, d.resolve m = .ok (.literal x) ∧ y ∈ ls ∧ y.same x = true := by
  obtain ⟨alts, halts, hpairs⟩ := deepLiterals?_eq_some hls
  have hmember : d.HasMember t m := ⟨members, hmembers, hm⟩
  obtain ⟨c, hc, hbeq⟩ :=
    exists_alternative_of_leads hd ht hmembers halts (.single hmember) halternative
  obtain ⟨y, hy, hcy⟩ := exists_of_mem_forall₂ hpairs.flip hc
  have hequal : Ty.Equal c m := ⟨wellFormed_of_mem_alternatives hd ht hmembers halts hc,
    hmember.wellFormed hd ht, hbeq⟩
  obtain ⟨x, hx, hsame⟩ := resolve_literal_of_equal hd hequal hcy
  exact ⟨x, y, hx, hy, hsame⟩

theorem literalOnly_of_not_nested (hmembers : ∀ m, d.HasMember t m → ∃ r, d.resolve m = .ok r)
    (hflat : ¬ d.Nested t) : d.LiteralOnly t := by
  obtain ⟨alts, halts, hpairs⟩ := deepLiterals?_eq_some hls
  rcases alternatives_cases halts with ⟨members, ht'⟩ | ⟨r, hr, -, rfl⟩
  · refine .union ht' fun m hm => ?_
    have hmember : d.HasMember t m := ⟨members, ht', hm⟩
    obtain ⟨r, hr⟩ := hmembers m hmember
    have halternative : d.IsAlternative m := ⟨r, hr, fun us hus => hflat ⟨m, us, hmember, hus ▸ hr⟩⟩
    obtain ⟨x, -, hx, -⟩ := literal_of_member hd ht hls ht' hm halternative
    exact ⟨x, hx⟩
  · obtain ⟨x, -, hx⟩ := exists_of_mem_forall₂ hpairs.flip (List.mem_singleton_self r)
    have hself := resolve_of_not_named (d := d) (isNamed_of_resolve hr)
    exact .literal (hr.trans (hself.symm.trans hx))

theorem allows_iff_of_not_nested (hflat : ¬ d.Nested t) :
    (∃ x, d.Allows t x ∧ x.same l = true) ↔ ls.any (·.same l) = true := by
  obtain ⟨alts, halts, hpairs⟩ := deepLiterals?_eq_some hls
  rw [List.any_eq_true]
  constructor
  · rintro ⟨x, hallows, hsame⟩
    cases hallows with
    | literal hx =>
        rcases alternatives_cases halts with ⟨members, ht'⟩ | ⟨r, hr, -, rfl⟩
        · cases hx.symm.trans ht'
        · cases hx.symm.trans hr
          obtain ⟨y, hy, hxy⟩ := exists_of_mem_forall₂ hpairs.flip (List.mem_singleton_self _)
          cases hxy
          exact ⟨x, hy, hsame⟩
    | member hm hx =>
        obtain ⟨members, ht', hm⟩ := hm
        obtain ⟨x', y, hx', hy, hyx⟩ := literal_of_member hd ht hls ht' hm ⟨_, hx, by simp⟩
        cases hx.symm.trans hx'
        exact ⟨y, hy, Literal.same_trans hyx hsame⟩
  · rintro ⟨y, hy, hsame⟩
    obtain ⟨b, hb, hby⟩ := exists_of_mem_forall₂ hpairs hy
    refine ⟨y, ?_, hsame⟩
    rcases alternatives_cases halts with ⟨members, ht'⟩ | ⟨r, hr, -, rfl⟩
    · -- with no union among the members, the first step is the last
      obtain ⟨hleads, -⟩ := leads_of_mem_alternatives ht' halts hb
      obtain ⟨m, hm, hmb⟩ := TransGen.head'_iff.mp hleads
      rcases ReflTransGen.cases_head hmb with rfl | ⟨c, ⟨us, hus, -⟩, -⟩
      · exact .member hm hby
      · exact absurd ⟨m, us, hm, hus⟩ hflat
    · rw [List.mem_singleton.mp hb] at hby
      have hself := resolve_of_not_named (d := d) (isNamed_of_resolve hr)
      exact .literal (hr.trans (hself.symm.trans hby))

end Flat

theorem LiteralOnly.not_nested (h : d.LiteralOnly t) : ¬ d.Nested t := by
  rintro ⟨m, us, ⟨members, hmembers, hm⟩, hus⟩
  cases h with
  | literal hl => cases hl.symm.trans hmembers
  | union hunion hall =>
      cases hunion.symm.trans hmembers
      obtain ⟨l, hl⟩ := hall m hm
      cases hl.symm.trans hus

theorem hasTag_iff {o : ObjectTy} {s : Slot Ty} {field : String} (hs : o.get? field = some s) :
    d.HasTag (some o) field ↔ s.optional = false ∧ d.LiteralOnly s.type := by
  simp only [HasTag, Option.some.injEq]
  constructor
  · rintro ⟨o', s', rfl, hs', hrequired, honly⟩
    cases hs.symm.trans hs'
    exact ⟨hrequired, honly⟩
  · rintro ⟨hrequired, honly⟩
    exact ⟨o, s, rfl, hs, hrequired, honly⟩

theorem mayHold_iff {o : ObjectTy} {s : Slot Ty} {field : String} (hs : o.get? field = some s) :
    d.MayHold (some o) field l ↔
      d.HasTag (some o) field ∧ ∃ x, d.Allows s.type x ∧ x.same l = true := by
  rw [hasTag_iff hs]
  simp only [MayHold, Option.some.injEq]
  constructor
  · rintro ⟨o', s', x, rfl, hs', hrequired, honly, hallows, hsame⟩
    cases hs.symm.trans hs'
    exact ⟨⟨hrequired, honly⟩, x, hallows, hsame⟩
  · rintro ⟨⟨hrequired, honly⟩, x, hallows, hsame⟩
    exact ⟨o, s, x, rfl, hs, hrequired, honly, hallows, hsame⟩

end Declarations

namespace Narrowing

open Declarations

variable {d : Declarations} {alts alts' : List Ty} {views views' : List (Option ObjectTy)}
  {tags tags' : List (Option (List Literal))} {field : String} {l : Literal}

/-- Two outcomes that select at the same place, or fail in the same way. -/
inductive SameOutcome : Selection → Selection → Prop
  | chosen (m m' : Ty) (i : Nat) : SameOutcome (.chosen m i) (.chosen m' i)
  | failed (failure : Failure) (candidates candidates' : List Nat) :
      SameOutcome (.failed failure candidates) (.failed failure candidates')

/-- The alternative at a place has a tag that may hold a literal. -/
def MayHoldAt (d : Declarations) (alts : List Ty) (field : String) (l : Literal) (i : Nat) : Prop :=
  ∃ b view, alts[i]? = some b ∧ d.objectView b = .ok view ∧ d.MayHold view field l

theorem mem_places_tags (hviews : d.objectViews alts = .ok views)
    (htags : d.tagsEach field views = .ok tags) {i : Nat} :
    i ∈ places (fun t => (t.getD []).any fun x => x.same l) tags ↔ MayHoldAt d alts field l i := by
  have hpairs := forall₂_comp (objectViews_eq_ok hviews) (tagsEach_eq_ok htags)
  rw [mem_places]
  constructor
  · rintro ⟨tag, htag, hany⟩
    obtain ⟨b, hb, view, hview, hliterals⟩ := getElem?_of_forall₂ hpairs.flip htag
    exact ⟨b, view, hb, hview, (any_tagLiterals? hliterals).mp hany⟩
  · rintro ⟨b, view, hb, hview, hmay⟩
    obtain ⟨tag, htag, view', hview', hliterals⟩ := getElem?_of_forall₂ hpairs hb
    cases hview.symm.trans hview'
    exact ⟨tag, htag, (any_tagLiterals? hliterals).mpr hmay⟩

theorem single_sameOutcome (hlength : alts.length = alts'.length) (matching : List Nat) :
    SameOutcome (single alts matching) (single alts' matching) := by
  match matching with
  | [] => exact .failed .noMatch [] []
  | [i] =>
      by_cases hi : i < alts.length
      · have hi' : i < alts'.length := hlength ▸ hi
        simp only [single, List.getElem?_eq_getElem hi, List.getElem?_eq_getElem hi']
        exact .chosen _ _ i
      · have hi' : ¬ i < alts'.length := hlength ▸ hi
        simp only [single, List.getElem?_eq_none (Nat.le_of_not_lt hi),
          List.getElem?_eq_none (Nat.le_of_not_lt hi')]
        exact .failed .noMatch [] []
  | i :: j :: rest => exact .failed .ambiguous _ _

theorem not_sameOutcome_missingTag {matching candidates : List Nat} :
    ¬ SameOutcome (single alts matching) (.failed .missingTag candidates) := by
  generalize houtcome : single alts matching = outcome
  rintro ⟨⟩
  rcases failure_of_single houtcome with h | h <;> cases h

theorem SameOutcome.symm {selection selection' : Selection} (h : SameOutcome selection selection') :
    SameOutcome selection' selection := by
  cases h with
  | chosen m m' i => exact .chosen m' m i
  | failed failure candidates candidates' => exact .failed failure candidates' candidates

/-- Where the literal may be held at the same places, two lists of alternatives are narrowed alike
exactly when both have the tag throughout or neither has. -/
theorem selectByTags_sameOutcome_iff (hlength : alts.length = alts'.length)
    (hviews : d.objectViews alts = .ok views) (htags : d.tagsEach field views = .ok tags)
    (hviews' : d.objectViews alts' = .ok views') (htags' : d.tagsEach field views' = .ok tags')
    (hplaces : Tagged d alts field → Tagged d alts' field →
      ∀ i, MayHoldAt d alts field l i ↔ MayHoldAt d alts' field l i) :
    SameOutcome (selectByTags alts tags l) (selectByTags alts' tags' l) ↔
      (Tagged d alts field ↔ Tagged d alts' field) := by
  by_cases htagged : Tagged d alts field <;> by_cases htagged' : Tagged d alts' field
  · rw [selectByTags_of_tagged hviews htags htagged, selectByTags_of_tagged hviews' htags' htagged']
    have heq : places (fun t => (t.getD []).any fun x => x.same l) tags =
        places (fun t => (t.getD []).any fun x => x.same l) tags' := by
      refine (places_pairwise _ _).eq_of_mem_iff (places_pairwise _ _) fun i => ?_
      rw [mem_places_tags hviews htags, mem_places_tags hviews' htags']
      exact hplaces htagged htagged' i
    rw [heq]
    simp only [htagged, htagged', iff_true]
    exact single_sameOutcome hlength _
  · rw [selectByTags_of_tagged hviews htags htagged,
      selectByTags_of_not_tagged hviews' htags' htagged']
    simp [htagged, htagged', not_sameOutcome_missingTag]
  · rw [selectByTags_of_not_tagged hviews htags htagged,
      selectByTags_of_tagged hviews' htags' htagged']
    simp only [htagged, htagged', iff_true, iff_false]
    exact fun h => not_sameOutcome_missingTag h.symm
  · rw [selectByTags_of_not_tagged hviews htags htagged,
      selectByTags_of_not_tagged hviews' htags' htagged']
    simp only [htagged, htagged', iff_true]
    exact .failed .missingTag _ _

section Replaced

variable {before after : List Ty} {m m' : Ty} {view view' : Option ObjectTy}

theorem tagged_iff (hm : d.objectView m = .ok view) :
    Tagged d (before ++ m :: after) field ↔
      d.HasTag view field ∧ Tagged d (before ++ after) field := by
  have hview : (∃ view, d.objectView m = .ok view ∧ d.HasTag view field) ↔
      d.HasTag view field := by
    simp [hm]
  simp only [Tagged, List.forall_mem_append, List.forall_mem_cons, hview]
  exact and_left_comm

theorem mayHoldAt_iff (hm : d.objectView m = .ok view) (hm' : d.objectView m' = .ok view')
    (h : d.MayHold view field l ↔ d.MayHold view' field l) (i : Nat) :
    MayHoldAt d (before ++ m :: after) field l i ↔
      MayHoldAt d (before ++ m' :: after) field l i := by
  unfold MayHoldAt
  rcases Nat.lt_trichotomy i before.length with hlt | rfl | hlt
  · rw [List.getElem?_append_left hlt, List.getElem?_append_left hlt]
  · simp [hm, hm', h]
  · obtain ⟨k, rfl⟩ : ∃ k, i = before.length + (k + 1) := ⟨i - before.length - 1, by omega⟩
    rw [List.getElem?_append_right hlt.le, List.getElem?_append_right hlt.le]
    simp

theorem mem_untagged (hm : d.objectView m = .ok view) (hnot : ¬ d.HasTag view field)
    (hviews : d.objectViews (before ++ m :: after) = .ok views)
    (htags : d.tagsEach field views = .ok tags) :
    before.length ∈ places Option.isNone tags := by
  have hpairs := forall₂_comp (objectViews_eq_ok hviews) (tagsEach_eq_ok htags)
  obtain ⟨tag, htag, view', hview', hliterals⟩ :=
    getElem?_of_forall₂ (i := before.length) (a := m) hpairs (by simp)
  cases hm.symm.trans hview'
  exact mem_places.mpr ⟨tag, htag, (isNone_tagLiterals? hliterals).mpr hnot⟩

end Replaced

section Slots

variable {u m : Ty} {o : ObjectTy} {s : Slot Ty} {ls : List Literal}

theorem reachable_slot (halts : d.alternatives u = .ok alts) (hm : m ∈ alts)
    (hview : d.objectView m = .ok (some o)) (hs : o.get? field = some s) :
    Reachable d u u s.type :=
  (seen_of_objectView (reachable_of_mem_alternatives .source halts hm) hview o rfl).part
    (Ty.mem_parts_of_mem_fields (Assoc.mem_of_lookup hs))

variable (hd : d.WellFormed) (hu : u.WellFormed) (halts : d.alternatives u = .ok alts)
  (hm : m ∈ alts) (hview : d.objectView m = .ok (some o)) (hs : o.get? field = some s)
  (hls : d.deepLiterals? s.type = .ok (some ls))
include hd hu halts hm hview hs hls

theorem hasTag_iff_not_nested (hresolves : d.Resolves u) :
    d.HasTag (some o) field ↔ ¬ s.optional = true ∧ ¬ d.Nested s.type := by
  have hreach := reachable_slot halts hm hview hs
  rw [hasTag_iff hs, Bool.not_eq_true]
  constructor
  · exact fun h => ⟨h.1, h.2.not_nested⟩
  · rintro ⟨hrequired, hflat⟩
    exact ⟨hrequired, literalOnly_of_not_nested hd (hreach.wellFormed hd hu hu) hls
      (fun b hb => hresolves b (hb.reachable hreach)) hflat⟩

theorem mayHold_iff_any (htag : d.HasTag (some o) field) :
    d.MayHold (some o) field l ↔ ls.any (·.same l) = true := by
  have hwf := (reachable_slot halts hm hview hs).wellFormed hd hu hu
  rw [mayHold_iff hs, allows_iff_of_not_nested hd hwf hls ((hasTag_iff hs).mp htag).2.not_nested]
  exact and_iff_right htag

end Slots

variable {setting : Setting} {u u' m m' t : Ty} {before after : List Ty} {o : ObjectTy}
  {s : Slot Ty} {ls ls' : List Literal}

/-- A tag can be given another type with the same literals, in one alternative of a type, without a
change of outcome exactly when both types are nested or neither is, unless the field is optional or
another alternative lacks the tag. A nested one is reported as missing. -/
theorem select_retagged (hd : setting.declarations.WellFormed) (hu : u.WellFormed)
    (hu' : u'.WellFormed) (hresolves : setting.declarations.Resolves u)
    (hresolves' : setting.declarations.Resolves u')
    (halts : setting.declarations.alternatives u = .ok (before ++ m :: after))
    (halts' : setting.declarations.alternatives u' = .ok (before ++ m' :: after))
    (hm : setting.declarations.objectView m = .ok (some o)) (hs : o.get? field = some s)
    (hm' : setting.declarations.objectView m' = .ok (some (o.insert field { s with type := t })))
    (hls : setting.declarations.deepLiterals? s.type = .ok (some ls))
    (hls' : setting.declarations.deepLiterals? t = .ok (some ls'))
    (hsame : ∀ x, ls.any (·.same x) = ls'.any (·.same x)) (l : Literal) :
    ∃ selection selection', setting.select u (.tag field l) = .ok selection ∧
      setting.select u' (.tag field l) = .ok selection' ∧
      (SameOutcome selection selection' ↔ s.optional = true ∨
        (setting.declarations.Nested s.type ↔ setting.declarations.Nested t) ∨
        ¬ Tagged setting.declarations (before ++ after) field) ∧
      (s.optional = false → setting.declarations.Nested t →
        ∃ places, selection' = .failed .missingTag places ∧ before.length ∈ places) := by
  obtain ⟨alts, views, halts₁, hviews, hseen⟩ := hresolves.alternativeViews
  cases halts.symm.trans halts₁
  obtain ⟨alts', views', halts₂, hviews', hseen'⟩ := hresolves'.alternativeViews
  cases halts'.symm.trans halts₂
  obtain ⟨tags, htags⟩ := hresolves.tagsEach hseen field
  obtain ⟨tags', htags'⟩ := hresolves'.tagsEach hseen' field
  have hmem : m ∈ before ++ m :: after := by simp
  have hmem' : m' ∈ before ++ m' :: after := by simp
  have hs' : (o.insert field { s with type := t }).get? field = some { s with type := t } :=
    Assoc.lookup_insert_self field _ o.fields
  have htag := hasTag_iff_not_nested hd hu halts hmem hm hs hls hresolves
  have htag' := hasTag_iff_not_nested hd hu' halts' hmem' hm' hs' hls' hresolves'
  refine ⟨_, _, select_tag_of_views halts hviews htags l,
    select_tag_of_views halts' hviews' htags' l, ?_, fun hrequired hnested => ?_⟩
  · have hplaces : Tagged setting.declarations (before ++ m :: after) field →
        Tagged setting.declarations (before ++ m' :: after) field →
        ∀ i, MayHoldAt setting.declarations (before ++ m :: after) field l i ↔
          MayHoldAt setting.declarations (before ++ m' :: after) field l i := by
      intro htagged htagged'
      apply mayHoldAt_iff hm hm'
      rw [mayHold_iff_any hd hu halts hmem hm hs hls ((tagged_iff hm).mp htagged).1,
        mayHold_iff_any hd hu' halts' hmem' hm' hs' hls' ((tagged_iff hm').mp htagged').1,
        hsame l]
    rw [selectByTags_sameOutcome_iff (by simp) hviews htags hviews' htags' hplaces, tagged_iff hm,
      tagged_iff hm', htag, htag']
    by_cases hoptional : s.optional = true
    · simp [hoptional]
    · by_cases hrest : Tagged setting.declarations (before ++ after) field
      · simp [hoptional, hrest, not_iff_not]
      · simp [hrest]
  · have hnot : ¬ setting.declarations.HasTag (some (o.insert field { s with type := t })) field :=
      fun hhas => (htag'.mp hhas).2 hnested
    have hnot' : ¬ Tagged setting.declarations (before ++ m' :: after) field :=
      fun htagged => hnot ((tagged_iff hm').mp htagged).1
    exact ⟨_, selectByTags_of_not_tagged hviews' htags' hnot',
      mem_untagged hm' hnot hviews' htags'⟩

def letter (name : String) : Ty :=
  .literal (.text name)

def kinds : Declarations :=
  .ofList [
    ("Kinds", .union [letter "a", letter "b"]),
    ("Letters", .union [letter "a", letter "b", letter "c"])]

def ofKind (type : Ty) : Ty :=
  .object [("kind", ⟨type, false, false⟩)] none

def flatKinds : Ty := .union [letter "a", letter "b", letter "c"]

def nestedKinds : Ty := .union [.named "Kinds", letter "c"]

/-- The same letters, written as a union that has another among its members, are no tag. -/
theorem select_nestedKinds :
    (∃ ls, kinds.deepLiterals? flatKinds = .ok (some ls) ∧
      kinds.deepLiterals? nestedKinds = .ok (some ls)) ∧
    (∃ m, Setting.select ⟨{}, kinds⟩ (.union [ofKind flatKinds, kind "d"])
      (.tag "kind" (.text "a")) = .ok (.chosen m 0)) ∧
    Setting.select ⟨{}, kinds⟩ (.union [ofKind nestedKinds, kind "d"]) (.tag "kind" (.text "a")) =
      .ok (.failed .missingTag [0]) :=
  ⟨⟨_, rfl, rfl⟩, ⟨_, rfl⟩, rfl⟩

theorem select_retagged_kinds :
    (∃ selection selection',
      Setting.select ⟨{}, kinds⟩ (.union [ofKind flatKinds, kind "d"]) (.tag "kind" (.text "a")) =
        .ok selection ∧
      Setting.select ⟨{}, kinds⟩ (.union [ofKind (.named "Letters"), kind "d"])
        (.tag "kind" (.text "a")) = .ok selection' ∧ SameOutcome selection selection') ∧
    ∃ selection selection',
      Setting.select ⟨{}, kinds⟩ (.union [ofKind flatKinds, kind "d"]) (.tag "kind" (.text "a")) =
        .ok selection ∧
      Setting.select ⟨{}, kinds⟩ (.union [ofKind nestedKinds, kind "d"])
        (.tag "kind" (.text "a")) = .ok selection' ∧ ¬ SameOutcome selection selection' ∧
      ∃ places, selection' = .failed .missingTag places ∧ 0 ∈ places := by
  let setting : Setting := ⟨{}, kinds⟩
  let whole (type : Ty) : Ty := .union [ofKind type, kind "d"]
  let o : ObjectTy := ⟨[("kind", ⟨flatKinds, false, false⟩)], none⟩
  let letters : List Literal := [.text "a", .text "b", .text "c"]
  have hd : setting.declarations.WellFormed := by decide
  have hmembers : ∀ m ∈ [letter "a", letter "b", letter "c"],
      ∃ l, kinds.resolve m = .ok (.literal l) := by
    simp only [List.forall_mem_cons]
    exact ⟨⟨_, rfl⟩, ⟨_, rfl⟩, ⟨_, rfl⟩, by simp⟩
  have hflat : ¬ kinds.Nested flatKinds := (LiteralOnly.union rfl hmembers).not_nested
  have hnamed : ¬ kinds.Nested (.named "Letters") := (LiteralOnly.union rfl hmembers).not_nested
  have hnested : kinds.Nested nestedKinds := ⟨.named "Kinds", _, ⟨_, rfl, by simp⟩, rfl⟩
  have hrest : Tagged kinds ([] ++ [kind "d"]) "kind" := by
    simp only [Tagged, List.nil_append, List.forall_mem_cons]
    exact ⟨⟨_, rfl, _, _, rfl, rfl, rfl, .literal rfl⟩, by simp⟩
  have hresolves : kinds.Resolves (whole flatKinds) := resolves_of_pool (by decide)
  have halts : kinds.alternatives (whole flatKinds) =
      .ok ([] ++ ofKind flatKinds :: [kind "d"]) := rfl
  have hslot : o.get? "kind" = some ⟨flatKinds, false, false⟩ := rfl
  have hls : kinds.deepLiterals? flatKinds = .ok (some letters) := rfl
  -- the flat type given another in its place
  have hretagged := fun (type : Ty) (hwf : (whole type).WellFormed)
      (hresolves' : kinds.Resolves (whole type))
      (halts' : kinds.alternatives (whole type) = .ok ([] ++ ofKind type :: [kind "d"]))
      (hls' : kinds.deepLiterals? type = .ok (some letters)) =>
    select_retagged (t := type) hd (by decide) hwf hresolves hresolves' halts halts' rfl hslot rfl
      hls hls' (fun _ => rfl) (.text "a")
  constructor
  · obtain ⟨selection, selection', hselect, hselect', hiff, -⟩ :=
      hretagged (.named "Letters") (by decide) (resolves_of_pool (by decide)) rfl rfl
    exact ⟨selection, selection', hselect, hselect',
      hiff.mpr (Or.inr (Or.inl (iff_of_false hflat hnamed)))⟩
  · obtain ⟨selection, selection', hselect, hselect', hiff, hmissing⟩ :=
      hretagged nestedKinds (by decide) (resolves_of_pool (by decide)) rfl rfl
    refine ⟨selection, selection', hselect, hselect', ?_, hmissing rfl hnested⟩
    rw [hiff]
    rintro (hoptional | hboth | hlacks)
    · cases hoptional
    · exact hflat (hboth.mpr hnested)
    · exact hlacks hrest

end Narrowing

end StructuralTypes
