import StructuralTypes.Proofs.Branches
import StructuralTypes.Proofs.Reordering
import StructuralTypes.Proofs.Tags

namespace StructuralTypes

open Relation

namespace Ty

/-- Lists of types that differ among each other, where every type of one list equals a type of the
other. -/
structure Matched (types types' : List Ty) : Prop where
  differ : types.Pairwise fun m m' => (m == m') = false
  differ' : types'.Pairwise fun m m' => (m == m') = false
  forth : ∀ b ∈ types, ∃ b' ∈ types', Equal b b'
  back : ∀ b' ∈ types', ∃ b ∈ types, Equal b b'

theorem Matched.symm {types types' : List Ty} (h : Matched types types') :
    Matched types' types where
  differ := h.differ'
  differ' := h.differ
  forth b' hb' := by
    obtain ⟨b, hb, hequal⟩ := h.back b' hb'
    exact ⟨b, hb, hequal.symm⟩
  back b hb := by
    obtain ⟨b', hb', hequal⟩ := h.forth b hb
    exact ⟨b', hb', hequal.symm⟩

theorem place_unique {types : List Ty} (hdiffer : types.Pairwise fun m m' => (m == m') = false)
    {i j : Nat} {b c : Ty} (hb : types[i]? = some b) (hc : types[j]? = some c) (h : Equal b c) :
    i = j := by
  obtain ⟨hi, rfl⟩ := List.getElem?_eq_some_iff.mp hb
  obtain ⟨hj, rfl⟩ := List.getElem?_eq_some_iff.mp hc
  rw [List.pairwise_iff_getElem] at hdiffer
  rcases lt_trichotomy i j with hlt | heq | hlt
  · exact absurd h.beq (by simp [hdiffer i j hi hj hlt])
  · exact heq
  · exact absurd h.symm.beq (by simp [hdiffer j i hj hi hlt])

end Ty

namespace Declarations

variable {d : Declarations} {t t' : Ty} {name : String} {view view' : Option ObjectTy}

section Alternatives

theorem resolve_of_equal (hd : d.WellFormed) {r : Ty} (h : Ty.Equal t t')
    (hr : d.resolve t = .ok r) : ∃ r', d.resolve t' = .ok r' ∧ Ty.Equal r r' := by
  obtain ⟨r', hr', hbeq⟩ := Assignability.resolve_of_beq hd h.wellFormed h.beq hr
  exact ⟨r', hr', hd.resolve h.wellFormed hr, hd.resolve h.wellFormed' hr', hbeq⟩

theorem HasMember.of_equal (hd : d.WellFormed) {m : Ty} (h : Ty.Equal t t')
    (hm : d.HasMember t m) : ∃ m', d.HasMember t' m' ∧ Ty.Equal m m' := by
  obtain ⟨members, ht, hm⟩ := hm
  obtain ⟨r', ht', hequal⟩ := resolve_of_equal hd h ht
  cases Ty.alike_of_beq hequal.beq with
  | union forth _ =>
      obtain ⟨m', hm', hmm⟩ := forth m hm
      exact ⟨m', ⟨_, ht', hm'⟩, hequal.wellFormed.part hm, hequal.wellFormed'.part hm', hmm⟩

theorem leads_of_equal (hd : d.WellFormed) {b : Ty} (h : Ty.Equal t t')
    (hb : TransGen d.HasMember t b) : ∃ b', TransGen d.HasMember t' b' ∧ Ty.Equal b b' := by
  induction hb with
  | single hm =>
      obtain ⟨m', hm', hmm⟩ := hm.of_equal hd h
      exact ⟨m', .single hm', hmm⟩
  | tail _ hm ih =>
      obtain ⟨c', hc', hcc⟩ := ih
      obtain ⟨m', hm', hmm⟩ := hm.of_equal hd hcc
      exact ⟨m', hc'.tail hm', hmm⟩

variable {alts alts' : List Ty}

theorem exists_equal_alternative (hd : d.WellFormed) {b : Ty} (h : Ty.Equal t t')
    (halts : d.alternatives t = .ok alts) (halts' : d.alternatives t' = .ok alts')
    (hb : b ∈ alts) : ∃ b' ∈ alts', Ty.Equal b b' := by
  rcases alternatives_cases halts with ⟨members, ht⟩ | ⟨r, ht, hunion, rfl⟩
  · obtain ⟨r', ht', hequal⟩ := resolve_of_equal hd h ht
    cases Ty.alike_of_beq hequal.beq with
    | union =>
        obtain ⟨hleads, halternative⟩ := leads_of_mem_alternatives ht halts hb
        obtain ⟨c, hc, hbc⟩ := leads_of_equal hd h hleads
        obtain ⟨b', hb', hbeq⟩ := exists_alternative_of_leads hd h.wellFormed' ht' halts' hc
          (halternative.of_beq hd hbc.wellFormed hbc.beq)
        have hwf := wellFormed_of_mem_alternatives hd h.wellFormed' ht' halts' hb'
        have hequal' : Ty.Equal b' c := ⟨hwf, hbc.wellFormed', hbeq⟩
        exact ⟨b', hb', hbc.trans hequal'.symm⟩
  · obtain ⟨r', ht', hequal⟩ := resolve_of_equal hd h ht
    rw [List.mem_singleton.mp hb]
    rcases alternatives_cases halts' with ⟨members', ht''⟩ | ⟨r'', ht'', -, rfl⟩
    · cases ht'.symm.trans ht''
      cases Ty.alike_of_beq hequal.beq
      exact absurd rfl (hunion _)
    · cases ht'.symm.trans ht''
      exact ⟨r', List.mem_singleton_self r', hequal⟩

theorem alternatives_matched (hd : d.WellFormed) (h : Ty.Equal t t')
    (halts : d.alternatives t = .ok alts) (halts' : d.alternatives t' = .ok alts') :
    Ty.Matched alts alts' where
  differ := alternatives_pairwise halts
  differ' := alternatives_pairwise halts'
  forth _ := exists_equal_alternative hd h halts halts'
  back b' hb' := by
    obtain ⟨b, hb, hequal⟩ := exists_equal_alternative hd h.symm halts' halts hb'
    exact ⟨b, hb, hequal.symm⟩

end Alternatives

section Views

/-- Two types are seen as objects with corresponding fields, or neither is seen as an object. -/
def ViewsAlike (view view' : Option ObjectTy) : Prop :=
  Option.Rel (fun o o' => Ty.FieldsCorrespond Ty.Equal o.fields o'.fields) view view'

theorem object?_of_equal {x y : Ty} (h : Ty.Equal x y) : ViewsAlike x.object? y.object? := by
  have hx := h.wellFormed
  have hy := h.wellFormed'
  cases Ty.alike_of_beq h.beq with
  | object length fieldsAlike _ =>
      apply Option.Rel.some
      apply fieldsAlike.correspond hx.names_nodup hy.names_nodup length
      · exact fun f hf => hx.part (Ty.mem_parts_of_mem_fields hf)
      · exact fun f hf => hy.part (Ty.mem_parts_of_mem_fields hf)
  | _ => exact .none

theorem objectView_of_equal (hd : d.WellFormed) (h : Ty.Equal t t')
    (hview : d.objectView t = .ok view) :
    ∃ view', d.objectView t' = .ok view' ∧ ViewsAlike view view' := by
  unfold objectView at hview ⊢
  cases hr : d.resolve t with
  | error fault =>
      rw [hr] at hview
      cases hview
  | ok r =>
      rw [hr] at hview
      cases hview
      obtain ⟨r', hr', hequal⟩ := resolve_of_equal hd h hr
      refine ⟨r'.expanded.object?, by rw [hr']; rfl, object?_of_equal ?_⟩
      exact ⟨hequal.wellFormed.expanded, hequal.wellFormed'.expanded,
        Assignability.expanded_beq hequal.beq⟩

theorem ViewsAlike.requiresField (h : ViewsAlike view view') (name : String) :
    requiresField view name = requiresField view' name := by
  unfold StructuralTypes.requiresField
  cases h with
  | none => rfl
  | some hfields =>
      have hslots := hfields name
      simp only [Option.bind_some, ObjectTy.get?]
      generalize List.lookup name _ = s at hslots ⊢
      generalize List.lookup name _ = s' at hslots ⊢
      cases hslots with
      | none => rfl
      | some hslot => simp [hslot.optional]

theorem ViewsAlike.exists_required (h : ViewsAlike view view') {o : ObjectTy} {s : Slot Ty}
    (hview : view = some o) (hs : o.get? name = some s) (hrequired : s.optional = false) :
    ∃ o' s', view' = some o' ∧ o'.get? name = some s' ∧ s'.optional = false ∧
      Ty.Equal s.type s'.type := by
  obtain ⟨o', hview', hfields⟩ := exists_of_rel_some h hview
  obtain ⟨s', hs', hslot⟩ := exists_of_rel_some (hfields name) hs
  exact ⟨o', s', hview', hs', hslot.optional ▸ hrequired, hslot.type⟩

theorem resolve_literal_of_equal (hd : d.WellFormed) {l : Literal} (h : Ty.Equal t t')
    (ht : d.resolve t = .ok (.literal l)) :
    ∃ l', d.resolve t' = .ok (.literal l') ∧ l.same l' = true := by
  obtain ⟨r', ht', hequal⟩ := resolve_of_equal hd h ht
  cases Ty.alike_of_beq hequal.beq with
  | literal hsame => exact ⟨_, ht', hsame⟩

theorem LiteralOnly.of_equal (hd : d.WellFormed) (h : Ty.Equal t t') (ht : d.LiteralOnly t) :
    d.LiteralOnly t' := by
  cases ht with
  | literal ht =>
      obtain ⟨l', ht', -⟩ := resolve_literal_of_equal hd h ht
      exact .literal ht'
  | union ht hmembers =>
      obtain ⟨r', ht', hequal⟩ := resolve_of_equal hd h ht
      cases Ty.alike_of_beq hequal.beq with
      | union _ back =>
          refine .union ht' fun m' hm' => ?_
          obtain ⟨m, hm, hmm⟩ := back m' hm'
          obtain ⟨l, hl⟩ := hmembers m hm
          obtain ⟨l', hl', -⟩ := resolve_literal_of_equal hd
            ⟨hequal.wellFormed.part hm, hequal.wellFormed'.part hm', hmm⟩ hl
          exact ⟨l', hl'⟩

theorem Allows.of_equal (hd : d.WellFormed) {l : Literal} (h : Ty.Equal t t')
    (hl : d.Allows t l) : ∃ l', d.Allows t' l' ∧ l.same l' = true := by
  cases hl with
  | literal ht =>
      obtain ⟨l', ht', hsame⟩ := resolve_literal_of_equal hd h ht
      exact ⟨l', .literal ht', hsame⟩
  | member hm hml =>
      obtain ⟨m', hm', hmm⟩ := hm.of_equal hd h
      obtain ⟨l', hml', hsame⟩ := resolve_literal_of_equal hd hmm hml
      exact ⟨l', .member hm' hml', hsame⟩

theorem HasTag.of_alike (hd : d.WellFormed) (h : ViewsAlike view view')
    (htag : d.HasTag view name) : d.HasTag view' name := by
  obtain ⟨o, s, hview, hs, hrequired, honly⟩ := htag
  obtain ⟨o', s', hview', hs', hrequired', hequal⟩ := h.exists_required hview hs hrequired
  exact ⟨o', s', hview', hs', hrequired', honly.of_equal hd hequal⟩

theorem MayHold.of_alike (hd : d.WellFormed) {l : Literal} (h : ViewsAlike view view')
    (hmay : d.MayHold view name l) : d.MayHold view' name l := by
  obtain ⟨o, s, x, hview, hs, hrequired, honly, hallows, hsame⟩ := hmay
  obtain ⟨o', s', hview', hs', hrequired', hequal⟩ := h.exists_required hview hs hrequired
  obtain ⟨x', hallows', hsame'⟩ := hallows.of_equal hd hequal
  exact ⟨o', s', x', hview', hs', hrequired', honly.of_equal hd hequal, hallows',
    Literal.same_trans (Literal.same_symm hsame') hsame⟩

end Views

end Declarations

namespace Narrowing

open Declarations

variable {alts alts' : List Ty}

section Places

theorem placesFrom_pairwise {α : Type} (p : α → Bool) (start : Nat) (items : List α) :
    (placesFrom p start items).Pairwise (· < ·) := by
  induction items generalizing start with
  | nil => exact .nil
  | cons a rest ih =>
      unfold placesFrom
      split
      · refine List.pairwise_cons.mpr ⟨fun j hj => ?_, ih (start + 1)⟩
        obtain ⟨n, -, -, -, rfl⟩ := mem_placesFrom.mp hj
        omega
      · exact ih (start + 1)

theorem places_pairwise {α : Type} (p : α → Bool) (items : List α) :
    (places p items).Pairwise (· < ·) :=
  placesFrom_pairwise p 0 items

theorem places_nodup {α : Type} (p : α → Bool) (items : List α) : (places p items).Nodup :=
  (places_pairwise p items).imp Nat.ne_of_lt

/-- Places of equal alternatives. -/
def SamePlace (alts alts' : List Ty) (i j : Nat) : Prop :=
  ∃ b b', alts[i]? = some b ∧ alts'[j]? = some b' ∧ Ty.Equal b b'

/-- Places of the same alternatives, up to equality. -/
def SamePlaces (alts alts' : List Ty) (places places' : List Nat) : Prop :=
  (∀ i ∈ places, ∃ j ∈ places', SamePlace alts alts' i j) ∧
    ∀ j ∈ places', ∃ i ∈ places, SamePlace alts alts' i j

/-- As many places on both sides, since no place is that of two alternatives. -/
theorem SamePlaces.length_eq (hmatched : Ty.Matched alts alts') {places places' : List Nat}
    (hplaces : places.Nodup) (hplaces' : places'.Nodup)
    (h : SamePlaces alts alts' places places') : places.length = places'.length := by
  rw [← List.toFinset_card_of_nodup hplaces, ← List.toFinset_card_of_nodup hplaces']
  apply le_antisymm
  · apply Finset.card_le_card_of_forall_subsingleton (SamePlace alts alts')
    · simpa using h.1
    · rintro j - i ⟨-, b, b', hb, hb', hequal⟩ i' ⟨-, c, c', hc, hc', hequal'⟩
      cases hb'.symm.trans hc'
      exact Ty.place_unique hmatched.differ hb hc (hequal.trans hequal'.symm)
  · apply Finset.card_le_card_of_forall_subsingleton' (SamePlace alts alts')
    · simpa using h.2
    · rintro i - j ⟨-, b, b', hb, hb', hequal⟩ j' ⟨-, c, c', hc, hc', hequal'⟩
      cases hb.symm.trans hc
      exact Ty.place_unique hmatched.differ' hb' hc' (hequal.symm.trans hequal')

theorem length_eq_of_matched (hmatched : Ty.Matched alts alts') : alts.length = alts'.length := by
  have hplaces : SamePlaces alts alts' (List.range alts.length) (List.range alts'.length) := by
    constructor
    · intro i hi
      have hget := List.getElem?_eq_getElem (List.mem_range.mp hi)
      obtain ⟨b', hb', hequal⟩ := hmatched.forth _ (List.mem_of_getElem? hget)
      obtain ⟨j, hj⟩ := List.mem_iff_getElem?.mp hb'
      have hlt := (List.getElem?_eq_some_iff.mp hj).1
      exact ⟨j, List.mem_range.mpr hlt, _, b', hget, hj, hequal⟩
    · intro j hj
      have hget := List.getElem?_eq_getElem (List.mem_range.mp hj)
      obtain ⟨b, hb, hequal⟩ := hmatched.back _ (List.mem_of_getElem? hget)
      obtain ⟨i, hi⟩ := List.mem_iff_getElem?.mp hb
      have hlt := (List.getElem?_eq_some_iff.mp hi).1
      exact ⟨i, List.mem_range.mpr hlt, b, _, hi, hget, hequal⟩
  simpa using hplaces.length_eq hmatched List.nodup_range List.nodup_range

theorem samePlaces_of_pairs {α : Type} {Q : Ty → α → Prop} {p : α → Bool} {items items' : List α}
    (hmatched : Ty.Matched alts alts') (hpairs : List.Forall₂ Q alts items)
    (hpairs' : List.Forall₂ Q alts' items')
    (hp : ∀ b b' a a', Ty.Equal b b' → Q b a → Q b' a' → p a = true → p a' = true) :
    SamePlaces alts alts' (places p items) (places p items') := by
  constructor
  · intro i hi
    obtain ⟨a, ha, hpa⟩ := mem_places.mp hi
    obtain ⟨b, hb, hba⟩ := getElem?_of_forall₂ hpairs.flip ha
    obtain ⟨b', hb', hequal⟩ := hmatched.forth b (List.mem_of_getElem? hb)
    obtain ⟨j, hj⟩ := List.mem_iff_getElem?.mp hb'
    obtain ⟨a', ha', hba'⟩ := getElem?_of_forall₂ hpairs' hj
    exact ⟨j, mem_places.mpr ⟨a', ha', hp b b' a a' hequal hba hba' hpa⟩, b, b', hb, hj, hequal⟩
  · intro j hj
    obtain ⟨a', ha', hpa'⟩ := mem_places.mp hj
    obtain ⟨b', hb', hba'⟩ := getElem?_of_forall₂ hpairs'.flip ha'
    obtain ⟨b, hb, hequal⟩ := hmatched.back b' (List.mem_of_getElem? hb')
    obtain ⟨i, hi⟩ := List.mem_iff_getElem?.mp hb
    obtain ⟨a, ha, hba⟩ := getElem?_of_forall₂ hpairs hi
    exact ⟨i, mem_places.mpr ⟨a, ha, hp b' b a' a hequal.symm hba' hba hpa'⟩, b, b', hi, hb',
      hequal⟩

end Places

section Outcomes

/-- Two outcomes of narrowing that say the same of two lists of alternatives: equal alternatives are
selected, or both fail in the same way because of the same alternatives. -/
inductive Agree (alts alts' : List Ty) : Selection → Selection → Prop
  | chosen {m m' : Ty} {i j : Nat} (hm : alts[i]? = some m) (hm' : alts'[j]? = some m')
      (h : m == m') : Agree alts alts' (.chosen m i) (.chosen m' j)
  | failed (failure : Failure) {candidates candidates' : List Nat}
      (h : SamePlaces alts alts' candidates candidates') :
      Agree alts alts' (.failed failure candidates) (.failed failure candidates')

theorem single_agree (hmatched : Ty.Matched alts alts') {matching matching' : List Nat}
    (hnodup : matching.Nodup) (hnodup' : matching'.Nodup)
    (h : SamePlaces alts alts' matching matching') :
    Agree alts alts' (single alts matching) (single alts' matching') := by
  have hlength := h.length_eq hmatched hnodup hnodup'
  match matching, matching' with
  | [], [] => exact .failed .noMatch h
  | [i], [j] =>
      obtain ⟨j', hj', b, b', hb, hb', hequal⟩ := h.1 i (List.mem_singleton_self i)
      rw [List.mem_singleton.mp hj'] at hb'
      simp only [single, hb, hb']
      exact .chosen hb hb' hequal.beq
  | _ :: _ :: _, _ :: _ :: _ => exact .failed .ambiguous h
  | [], _ :: _ => cases hlength
  | _ :: _, [] => cases hlength
  | [_], _ :: _ :: _ => simp at hlength
  | _ :: _ :: _, [_] => simp at hlength

variable {d : Declarations} {views views' : List (Option ObjectTy)}

theorem selectByPresence_agree (hd : d.WellFormed) (hmatched : Ty.Matched alts alts')
    (hviews : d.objectViews alts = .ok views) (hviews' : d.objectViews alts' = .ok views')
    (field : String) :
    Agree alts alts' (selectByPresence alts views field) (selectByPresence alts' views' field) := by
  apply single_agree hmatched (places_nodup _ _) (places_nodup _ _)
  apply samePlaces_of_pairs hmatched (objectViews_eq_ok hviews) (objectViews_eq_ok hviews')
  intro b b' view view' hequal hview hview' hrequires
  obtain ⟨view'', hview'', halike⟩ := objectView_of_equal hd hequal hview
  cases hview'.symm.trans hview''
  rw [← halike.requiresField]
  exact hrequires

theorem forall₂_comp {α β γ : Type} {P : α → β → Prop} {Q : β → γ → Prop} {as : List α}
    {bs : List β} {cs : List γ} (h : List.Forall₂ P as bs) (h' : List.Forall₂ Q bs cs) :
    List.Forall₂ (fun a c => ∃ b, P a b ∧ Q b c) as cs := by
  induction h generalizing cs with
  | nil =>
      cases h'
      exact .nil
  | cons hab _ ih =>
      cases h' with
      | cons hbc hrest => exact .cons ⟨_, hab, hbc⟩ (ih hrest)

theorem selectByTags_agree (hd : d.WellFormed) (hmatched : Ty.Matched alts alts')
    (hviews : d.objectViews alts = .ok views) (hviews' : d.objectViews alts' = .ok views')
    {field : String} {tags tags' : List (Option (List Literal))}
    (htags : d.tagsEach field views = .ok tags) (htags' : d.tagsEach field views' = .ok tags')
    (wanted : Literal) :
    Agree alts alts' (selectByTags alts tags wanted) (selectByTags alts' tags' wanted) := by
  have hpairs := forall₂_comp (objectViews_eq_ok hviews) (tagsEach_eq_ok htags)
  have hpairs' := forall₂_comp (objectViews_eq_ok hviews') (tagsEach_eq_ok htags')
  have huntagged : SamePlaces alts alts' (places Option.isNone tags)
      (places Option.isNone tags') := by
    apply samePlaces_of_pairs hmatched hpairs hpairs'
    rintro b b' tag tag' hequal ⟨view, hview, htag⟩ ⟨view', hview', htag'⟩ hnone
    obtain ⟨view'', hview'', halike⟩ := objectView_of_equal hd hequal.symm hview'
    cases hview.symm.trans hview''
    rw [isNone_tagLiterals? htag] at hnone
    rw [isNone_tagLiterals? htag']
    exact fun htagged => hnone (htagged.of_alike hd halike)
  have hmatching : SamePlaces alts alts'
      (places (fun t => (t.getD []).any fun l => l.same wanted) tags)
      (places (fun t => (t.getD []).any fun l => l.same wanted) tags') := by
    apply samePlaces_of_pairs hmatched hpairs hpairs'
    rintro b b' tag tag' hequal ⟨view, hview, htag⟩ ⟨view', hview', htag'⟩ hany
    obtain ⟨view'', hview'', halike⟩ := objectView_of_equal hd hequal hview
    cases hview'.symm.trans hview''
    exact (any_tagLiterals? htag').mpr (((any_tagLiterals? htag).mp hany).of_alike hd halike)
  have hlength := huntagged.length_eq hmatched (places_nodup _ _) (places_nodup _ _)
  unfold selectByTags
  generalize places Option.isNone tags = untagged at huntagged hlength
  generalize places Option.isNone tags' = untagged' at huntagged hlength
  match untagged, untagged' with
  | [], [] =>
      exact single_agree hmatched (places_nodup _ _) (places_nodup _ _) hmatching
  | _ :: _, _ :: _ => exact .failed .missingTag huntagged
  | [], _ :: _ => cases hlength
  | _ :: _, [] => cases hlength

variable {setting : Setting} {u u' : Ty}

theorem refusalTags_of_equal (hd : setting.declarations.WellFormed) (h : Ty.Equal u u')
    (halts : setting.declarations.alternatives u = .ok alts)
    (halts' : setting.declarations.alternatives u' = .ok alts') {names names' : List String}
    (hnames : refusalTags setting u alts = .ok names)
    (hnames' : refusalTags setting u' alts' = .ok names') {name : String} (hname : name ∈ names) :
    name ∈ names' := by
  have hmatched := alternatives_matched hd h halts halts'
  unfold refusalTags at hnames hnames'
  rw [← length_eq_of_matched hmatched] at hnames'
  split at hnames
  · rename_i hrefuses
    rw [if_pos hrefuses] at hnames'
    rw [mem_tagNames_iff hnames halts] at hname
    rw [mem_tagNames_iff hnames' halts']
    intro b' hb'
    obtain ⟨b, hb, hequal⟩ := hmatched.back b' hb'
    obtain ⟨view, hview, htag⟩ := hname b hb
    obtain ⟨view', hview', halike⟩ := objectView_of_equal hd hequal hview
    exact ⟨view', hview', htag.of_alike hd halike⟩
  · cases hnames
    cases hname

theorem refusalTags_eq_nil (hd : setting.declarations.WellFormed) (h : Ty.Equal u u')
    (halts : setting.declarations.alternatives u = .ok alts)
    (halts' : setting.declarations.alternatives u' = .ok alts') {names names' : List String}
    (hnames : refusalTags setting u alts = .ok names)
    (hnames' : refusalTags setting u' alts' = .ok names') : names = [] ↔ names' = [] := by
  rw [List.eq_nil_iff_forall_not_mem, List.eq_nil_iff_forall_not_mem]
  constructor
  · exact fun hnone name hname =>
      hnone name (refusalTags_of_equal hd h.symm halts' halts hnames' hnames hname)
  · exact fun hnone name hname =>
      hnone name (refusalTags_of_equal hd h halts halts' hnames hnames' hname)

/-- Equal types, and so types that differ in the order of fields and union members only, are
narrowed alike. -/
theorem select_congr {test : Test} (hd : setting.declarations.WellFormed) (hu : u.WellFormed)
    (hu' : u'.WellFormed) (huu : u == u' ∨ u.Reordered u') {selection selection' : Selection}
    (h : setting.select u test = .ok selection) (h' : setting.select u' test = .ok selection') :
    ∃ alts alts', setting.declarations.alternatives u = .ok alts ∧
      setting.declarations.alternatives u' = .ok alts' ∧
      Agree alts alts' selection selection' := by
  have hequal : Ty.Equal u u' := ⟨hu, hu', huu.elim id (·.beq hu hu')⟩
  cases test with
  | tag field wanted =>
      obtain ⟨alts, views, tags, halts, hviews, htags, rfl⟩ := select_tag_eq_ok h
      obtain ⟨alts', views', tags', halts', hviews', htags', rfl⟩ := select_tag_eq_ok h'
      have hmatched := alternatives_matched hd hequal halts halts'
      exact ⟨alts, alts', halts, halts',
        selectByTags_agree hd hmatched hviews hviews' htags htags' wanted⟩
  | present field =>
      obtain ⟨alts, views, names, halts, hviews, hnames, hselect⟩ := select_present_eq_ok h
      obtain ⟨alts', views', names', halts', hviews', hnames', hselect'⟩ :=
        select_present_eq_ok h'
      have hmatched := alternatives_matched hd hequal halts halts'
      have hrefused := refusalTags_eq_nil hd hequal halts halts' hnames hnames'
      refine ⟨alts, alts', halts, halts', ?_⟩
      rcases hselect with ⟨hnone, rfl⟩ | ⟨hsome, rfl⟩
      · rcases hselect' with ⟨-, rfl⟩ | ⟨hsome', -⟩
        · exact selectByPresence_agree hd hmatched hviews hviews' field
        · exact absurd (hrefused.mp hnone) hsome'
      · rcases hselect' with ⟨hnone', -⟩ | ⟨-, rfl⟩
        · exact absurd (hrefused.mpr hnone') hsome
        · exact .failed .tagAvailable ⟨by simp, by simp⟩

theorem select_congr_shapes :
    Setting.select ⟨{}, shapes⟩ (.union [.named "Round", kind "disc"])
        (.tag "kind" (.text "disc")) = .ok (.failed .ambiguous [0, 2]) ∧
    Setting.select ⟨{}, shapes⟩ (.union [kind "disc", .named "Round"])
        (.tag "kind" (.text "disc")) = .ok (.failed .ambiguous [0, 1]) ∧
    ∃ alts alts', shapes.alternatives (.union [.named "Round", kind "disc"]) = .ok alts ∧
      shapes.alternatives (.union [kind "disc", .named "Round"]) = .ok alts' ∧
      SamePlaces alts alts' [0, 2] [0, 1] := by
  have hselect : Setting.select ⟨{}, shapes⟩ (.union [.named "Round", kind "disc"])
      (.tag "kind" (.text "disc")) = .ok (.failed .ambiguous [0, 2]) := rfl
  have hselect' : Setting.select ⟨{}, shapes⟩ (.union [kind "disc", .named "Round"])
      (.tag "kind" (.text "disc")) = .ok (.failed .ambiguous [0, 1]) := rfl
  have hd : (Setting.mk {} shapes).declarations.WellFormed := by decide
  have hbeq : Ty.union [.named "Round", kind "disc"] == .union [kind "disc", .named "Round"] := by
    decide
  obtain ⟨alts, alts', halts, halts', hagree⟩ :=
    select_congr hd (by decide) (by decide) (Or.inl hbeq) hselect hselect'
  cases hagree with
  | failed _ hplaces => exact ⟨hselect, hselect', alts, alts', halts, halts', hplaces⟩

end Outcomes

end Narrowing

end StructuralTypes
