import StructuralTypes.Narrowing.Selection
import StructuralTypes.Proofs.Alternatives

namespace StructuralTypes

theorem forall₂_of_each {α β : Type} (one : α → Except Fault β)
    (each : List α → Except Fault (List β)) (hnil : each [] = .ok [])
    (hcons : ∀ a rest, each (a :: rest) = (one a).bind fun b => (each rest).map (b :: ·))
    {items : List α} {results : List β} (h : each items = .ok results) :
    List.Forall₂ (fun a b => one a = .ok b) items results := by
  induction items generalizing results with
  | nil =>
      rw [hnil] at h
      cases h
      exact .nil
  | cons a rest ih =>
      rw [hcons] at h
      cases ha : one a with
      | error fault =>
          rw [ha] at h
          cases h
      | ok b =>
          rw [ha] at h
          cases hrest : each rest with
          | error fault =>
              rw [hrest] at h
              cases h
          | ok others =>
              rw [hrest] at h
              cases h
              exact .cons ha (ih hrest)

theorem each_congr {α β : Type} (one one' : α → Except Fault β)
    (each each' : List α → Except Fault (List β)) (hnil : each [] = .ok [])
    (hnil' : each' [] = .ok [])
    (hcons : ∀ a rest, each (a :: rest) = (one a).bind fun b => (each rest).map (b :: ·))
    (hcons' : ∀ a rest, each' (a :: rest) = (one' a).bind fun b => (each' rest).map (b :: ·))
    {items : List α} (h : ∀ a ∈ items, one a = one' a) : each items = each' items := by
  induction items with
  | nil => rw [hnil, hnil']
  | cons a rest ih =>
      rw [List.forall_mem_cons] at h
      rw [hcons, hcons', h.1, ih h.2]

theorem getElem?_of_forall₂ {α β : Type} {P : α → β → Prop} {items : List α} {results : List β}
    (h : List.Forall₂ P items results) {i : Nat} {a : α} (ha : items[i]? = some a) :
    ∃ b, results[i]? = some b ∧ P a b := by
  obtain ⟨hi, rfl⟩ := List.getElem?_eq_some_iff.mp ha
  have hi' : i < results.length := h.length_eq ▸ hi
  exact ⟨results[i], List.getElem?_eq_getElem hi', h.get hi hi'⟩

namespace Declarations

variable {d : Declarations}

theorem objectViews_cons (t : Ty) (rest : List Ty) :
    d.objectViews (t :: rest) =
      (d.objectView t).bind fun view => (d.objectViews rest).map (view :: ·) := by
  rw [objectViews]
  cases d.objectView t <;> rfl

theorem tagsEach_cons (name : String) (view : Option ObjectTy) (rest : List (Option ObjectTy)) :
    d.tagsEach name (view :: rest) =
      (d.tagLiterals? view name).bind fun tags => (d.tagsEach name rest).map (tags :: ·) := by
  rw [tagsEach]
  cases d.tagLiterals? view name <;> rfl

theorem objectViews_eq_ok {types : List Ty} {views : List (Option ObjectTy)}
    (h : d.objectViews types = .ok views) :
    List.Forall₂ (fun t view => d.objectView t = .ok view) types views :=
  forall₂_of_each d.objectView d.objectViews rfl objectViews_cons h

theorem tagsEach_eq_ok {name : String} {views : List (Option ObjectTy)}
    {tags : List (Option (List Literal))} (h : d.tagsEach name views = .ok tags) :
    List.Forall₂ (fun view tag => d.tagLiterals? view name = .ok tag) views tags :=
  forall₂_of_each (d.tagLiterals? · name) (d.tagsEach name) rfl (tagsEach_cons name) h

theorem exists_view_of_tagLiterals? {name : String} {view : Option ObjectTy} {ls : List Literal}
    (h : d.tagLiterals? view name = .ok (some ls)) : ∃ o, view = some o := by
  cases view with
  | none => cases h
  | some o => exact ⟨o, rfl⟩

end Declarations

namespace Narrowing

open Declarations

section Places

variable {α : Type} {p : α → Bool} {items : List α} {j : Nat}

theorem mem_placesFrom {start : Nat} : j ∈ placesFrom p start items ↔
    ∃ n a, items[n]? = some a ∧ p a = true ∧ j = start + n := by
  induction items generalizing start with
  | nil => simp [placesFrom]
  | cons first rest ih =>
      have hfirst : (∃ n a, (first :: rest)[n]? = some a ∧ p a = true ∧ j = start + n) ↔
          p first = true ∧ j = start ∨
            ∃ n a, rest[n]? = some a ∧ p a = true ∧ j = start + 1 + n := by
        constructor
        · rintro ⟨n, a, ha, hp, rfl⟩
          cases n with
          | zero =>
              cases ha
              exact Or.inl ⟨hp, rfl⟩
          | succ n => exact Or.inr ⟨n, a, by simpa using ha, hp, by omega⟩
        · rintro (⟨hp, rfl⟩ | ⟨n, a, ha, hp, rfl⟩)
          · exact ⟨0, first, rfl, hp, rfl⟩
          · exact ⟨n + 1, a, by simpa using ha, hp, by omega⟩
      rw [hfirst, ← ih, placesFrom]
      split <;> simp [*]

theorem mem_places : j ∈ places p items ↔ ∃ a, items[j]? = some a ∧ p a = true := by
  rw [places, mem_placesFrom]
  constructor
  · rintro ⟨n, a, ha, hp, rfl⟩
    exact ⟨a, by simpa using ha, hp⟩
  · rintro ⟨a, ha, hp⟩
    exact ⟨j, a, ha, hp, by simp⟩

theorem single_eq_chosen {members : List Ty} {matching : List Nat} {m : Ty} {i : Nat}
    (h : single members matching = .chosen m i) : members[i]? = some m ∧ matching = [i] := by
  unfold single at h
  split at h
  · cases h
  · split at h
    · rename_i hm
      cases h
      exact ⟨hm, rfl⟩
    · cases h
  · cases h

end Places

variable {d : Declarations} {test : Test} {members : List Ty} {views : List (Option ObjectTy)}
  {m : Ty} {i : Nat}

/-- The test is decided for every one of several views, it is certain of at most the one at a given
place, and the view there is an object. -/
structure CertainAt (d : Declarations) (test : Test) (views : List (Option ObjectTy)) (i : Nat) :
    Prop where
  object : ∃ o, views[i]? = some (some o)
  decided : ∀ j view, views[j]? = some view →
    ∃ c, certain d test view = .ok c ∧ (c = true → j = i)

theorem certainAt_of_selectByPresence {field : String}
    (h : selectByPresence members views field = .chosen m i) :
    members[i]? = some m ∧ CertainAt d (.present field) views i := by
  obtain ⟨hm, hplaces⟩ := single_eq_chosen h
  refine ⟨hm, ⟨?_, fun j view hview => ⟨_, rfl, fun hrequires => ?_⟩⟩⟩
  · have hi : i ∈ places (fun view => requiresField view field) views := by simp [hplaces]
    obtain ⟨view, hview, hrequires⟩ := mem_places.mp hi
    cases view with
    | none => cases hrequires
    | some o => exact ⟨o, hview⟩
  · have hj : j ∈ places (fun view => requiresField view field) views :=
      mem_places.mpr ⟨view, hview, hrequires⟩
    rw [hplaces] at hj
    exact List.mem_singleton.mp hj

theorem certain_tag {field : String} {view : Option ObjectTy} {tag : Option (List Literal)}
    (wanted : Literal) (h : d.tagLiterals? view field = .ok tag) :
    ∃ c, certain d (.tag field wanted) view = .ok c ∧
      (c = true → (tag.getD []).any (·.same wanted) = true) := by
  simp only [certain, h]
  refine ⟨_, rfl, fun hall => ?_⟩
  match tag, hall with
  | some (l :: rest), hall =>
      have hl : l.same wanted = true := List.all_eq_true.mp hall l List.mem_cons_self
      simp [hl]

theorem certainAt_of_selectByTags {field : String} {wanted : Literal}
    {tags : List (Option (List Literal))} (htags : d.tagsEach field views = .ok tags)
    (h : selectByTags members tags wanted = .chosen m i) :
    members[i]? = some m ∧ CertainAt d (.tag field wanted) views i := by
  have hpairs := tagsEach_eq_ok htags
  unfold selectByTags at h
  split at h
  · obtain ⟨hm, hplaces⟩ := single_eq_chosen h
    refine ⟨hm, ⟨?_, fun j view hview => ?_⟩⟩
    · have hi : i ∈ places (fun t => (t.getD []).any fun l => l.same wanted) tags := by
        simp [hplaces]
      obtain ⟨tag, htag, hany⟩ := mem_places.mp hi
      obtain ⟨view, hview, hliterals⟩ := getElem?_of_forall₂ hpairs.flip htag
      cases tag with
      | none => simp at hany
      | some ls =>
          obtain ⟨o, rfl⟩ := exists_view_of_tagLiterals? hliterals
          exact ⟨o, hview⟩
    · obtain ⟨tag, htag, hliterals⟩ := getElem?_of_forall₂ hpairs hview
      obtain ⟨c, hc, hmay⟩ := certain_tag wanted hliterals
      refine ⟨c, hc, fun hcertain => ?_⟩
      have hj : j ∈ places (fun t => (t.getD []).any fun l => l.same wanted) tags :=
        mem_places.mpr ⟨tag, htag, hmay hcertain⟩
      rw [hplaces] at hj
      exact List.mem_singleton.mp hj
  · cases h

theorem select_tag_eq_ok {setting : Setting} {u : Ty} {field : String} {wanted : Literal}
    {selection : Selection} (h : setting.select u (.tag field wanted) = .ok selection) :
    ∃ alts views tags, setting.declarations.alternatives u = .ok alts ∧
      setting.declarations.objectViews alts = .ok views ∧
      setting.declarations.tagsEach field views = .ok tags ∧
      selectByTags alts tags wanted = selection := by
  unfold Setting.select outcome at h
  cases halts : setting.declarations.alternatives u with
  | error fault =>
      rw [halts] at h
      cases h
  | ok alts =>
      simp only [halts] at h
      cases hviews : setting.declarations.objectViews alts with
      | error fault =>
          rw [hviews] at h
          cases h
      | ok views =>
          simp only [hviews] at h
          cases htags : setting.declarations.tagsEach field views with
          | error fault =>
              simp only [htags] at h
              cases h
          | ok tags =>
              simp only [htags] at h
              exact ⟨alts, views, tags, rfl, hviews, htags, Except.ok.inj h⟩

theorem select_present_eq_ok {setting : Setting} {u : Ty} {field : String}
    {selection : Selection} (h : setting.select u (.present field) = .ok selection) :
    ∃ alts views names, setting.declarations.alternatives u = .ok alts ∧
      setting.declarations.objectViews alts = .ok views ∧
      refusalTags setting u alts = .ok names ∧
      (names = [] ∧ selectByPresence alts views field = selection ∨
        names ≠ [] ∧ selection = .failed .tagAvailable []) := by
  unfold Setting.select outcome at h
  cases halts : setting.declarations.alternatives u with
  | error fault =>
      rw [halts] at h
      cases h
  | ok alts =>
      simp only [halts] at h
      cases hviews : setting.declarations.objectViews alts with
      | error fault =>
          rw [hviews] at h
          cases h
      | ok views =>
          simp only [hviews] at h
          cases hnames : refusalTags setting u alts with
          | error fault =>
              simp only [hnames] at h
              cases h
          | ok names =>
              simp only [hnames] at h
              refine ⟨alts, views, names, rfl, hviews, hnames, ?_⟩
              cases names with
              | nil => exact Or.inl ⟨rfl, Except.ok.inj h⟩
              | cons name rest => exact Or.inr ⟨by simp, (Except.ok.inj h).symm⟩

theorem select_eq_chosen {setting : Setting} {u : Ty}
    (h : setting.select u test = .ok (.chosen m i)) :
    ∃ alts views, setting.declarations.alternatives u = .ok alts ∧
      setting.declarations.objectViews alts = .ok views ∧ alts[i]? = some m ∧
      CertainAt setting.declarations test views i := by
  cases test with
  | tag field wanted =>
      obtain ⟨alts, views, tags, halts, hviews, htags, hselect⟩ := select_tag_eq_ok h
      exact ⟨alts, views, halts, hviews, certainAt_of_selectByTags htags hselect⟩
  | present field =>
      obtain ⟨alts, views, names, halts, hviews, -, ⟨-, hselect⟩ | ⟨-, hrefused⟩⟩ :=
        select_present_eq_ok h
      · exact ⟨alts, views, halts, hviews, certainAt_of_selectByPresence hselect⟩
      · cases hrefused

theorem uncertain_eq_ok (h : ∀ b ∈ members, ∃ view c, d.objectView b = .ok view ∧
      certain d test view = .ok c) :
    ∃ left, uncertain d test members = .ok left ∧ left.Sublist members ∧
      ∀ b ∈ members, ∀ view, d.objectView b = .ok view → certain d test view = .ok false →
        b ∈ left := by
  induction members with
  | nil => exact ⟨[], rfl, .slnil, by simp⟩
  | cons first rest ih =>
      rw [List.forall_mem_cons] at h
      obtain ⟨view, c, hview, hc⟩ := h.1
      obtain ⟨left, hleft, hsub, hkept⟩ := ih h.2
      unfold uncertain
      simp only [hview, hc, hleft]
      cases c with
      | true =>
          refine ⟨left, rfl, hsub.cons first, fun b hb view' hview' hfalse => ?_⟩
          rcases List.mem_cons.mp hb with rfl | hb
          · rw [hview] at hview'
            cases hview'
            rw [hc] at hfalse
            cases hfalse
          · exact hkept b hb view' hview' hfalse
      | false =>
          refine ⟨first :: left, rfl, hsub.cons_cons first, fun b hb view' hview' hfalse => ?_⟩
          rcases List.mem_cons.mp hb with rfl | hb
          · exact List.mem_cons_self
          · exact List.mem_cons_of_mem first (hkept b hb view' hview' hfalse)

/-- Every alternative but the selected one is left. -/
theorem select_branches {setting : Setting} {u : Ty}
    (h : setting.select u test = .ok (.chosen m i)) :
    ∃ alts left, setting.declarations.alternatives u = .ok alts ∧ alts[i]? = some m ∧
      (∃ o, setting.declarations.objectView m = .ok (some o)) ∧
      uncertain setting.declarations test alts = .ok left ∧ left.Sublist alts ∧
      ∀ j b, j ≠ i → alts[j]? = some b → b ∈ left := by
  obtain ⟨alts, views, halts, hviews, hm, hcertain⟩ := select_eq_chosen h
  have hpairs := objectViews_eq_ok hviews
  have hdecided : ∀ j b, alts[j]? = some b → ∃ view c,
      setting.declarations.objectView b = .ok view ∧
      certain setting.declarations test view = .ok c ∧ (c = true → j = i) := by
    intro j b hb
    obtain ⟨view, hview, hb⟩ := getElem?_of_forall₂ hpairs hb
    obtain ⟨c, hc, hj⟩ := hcertain.decided j view hview
    exact ⟨view, c, hb, hc, hj⟩
  have hall : ∀ b ∈ alts, ∃ view c, setting.declarations.objectView b = .ok view ∧
      certain setting.declarations test view = .ok c := by
    intro b hb
    obtain ⟨j, hj⟩ := List.mem_iff_getElem?.mp hb
    obtain ⟨view, c, hview, hc, -⟩ := hdecided j b hj
    exact ⟨view, c, hview, hc⟩
  obtain ⟨left, hleft, hsub, hkept⟩ := uncertain_eq_ok hall
  refine ⟨alts, left, halts, hm, ?_, hleft, hsub, fun j b hji hb => ?_⟩
  · obtain ⟨o, ho⟩ := hcertain.object
    obtain ⟨view, hview, hobject⟩ := getElem?_of_forall₂ hpairs hm
    rw [ho] at hview
    cases hview
    exact ⟨o, hobject⟩
  · obtain ⟨view, c, hview, hc, hj⟩ := hdecided j b hb
    cases c with
    | true => exact absurd (hj rfl) hji
    | false => exact hkept b (List.mem_of_getElem? hb) view hview hc

end Narrowing

end StructuralTypes
