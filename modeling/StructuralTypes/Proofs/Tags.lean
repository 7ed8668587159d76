import StructuralTypes.Proofs.Selection

namespace StructuralTypes

namespace Ty

theorem mapM_literal?_eq_some {ts : List Ty} {ls : List Literal} :
    ts.mapM literal? = some ls ↔ ts = ls.map .literal := by
  induction ts generalizing ls with
  | nil => simp [eq_comm]
  | cons t rest ih =>
      have hfirst : ∀ l, t.literal? = some l ↔ t = .literal l := by
        intro l
        cases t <;> simp [literal?]
      simp only [List.mapM_cons, Option.bind_eq_bind, Option.pure_def, Option.bind_eq_some_iff,
        Option.some.injEq, hfirst, ih]
      constructor
      · rintro ⟨l, rfl, others, rfl, rfl⟩
        rfl
      · intro h
        cases ls with
        | nil => cases h
        | cons l others =>
            cases h
            exact ⟨l, rfl, others, rfl, rfl⟩

end Ty

namespace Declarations

variable {d : Declarations} {t : Ty} {l : Literal} {ls : List Literal} {name : String}
  {view : Option ObjectTy} {views : List (Option ObjectTy)}

section Literals

/-- A literal that a type allows: the type stands for it, or has a member that does. -/
inductive Allows (d : Declarations) (t : Ty) (l : Literal) : Prop
  | literal (h : d.resolve t = .ok (.literal l))
  | member {m : Ty} (hm : d.HasMember t m) (h : d.resolve m = .ok (.literal l))

/-- A type that stands for a literal, or for a union whose members each stand for one. -/
inductive LiteralOnly (d : Declarations) (t : Ty) : Prop
  | literal {l : Literal} (h : d.resolve t = .ok (.literal l))
  | union {members : List Ty} (h : d.resolve t = .ok (.union members))
      (hmembers : ∀ m ∈ members, ∃ l, d.resolve m = .ok (.literal l))

theorem resolveEach_cons (m : Ty) (rest : List Ty) :
    d.resolveEach (m :: rest) =
      (d.resolve m).bind fun t => (d.resolveEach rest).map (t :: ·) := by
  rw [resolveEach]
  cases d.resolve m <;> rfl

theorem resolveEach_eq_ok {types ts : List Ty} (h : d.resolveEach types = .ok ts) :
    List.Forall₂ (fun m t => d.resolve m = .ok t) types ts :=
  forall₂_of_each d.resolve d.resolveEach rfl resolveEach_cons h

theorem resolveEach_of_literals {types : List Ty}
    (h : ∀ m ∈ types, ∃ l, d.resolve m = .ok (.literal l)) :
    ∃ ls : List Literal, d.resolveEach types = .ok (ls.map .literal) := by
  induction types with
  | nil => exact ⟨[], rfl⟩
  | cons m rest ih =>
      rw [List.forall_mem_cons] at h
      obtain ⟨l, hl⟩ := h.1
      obtain ⟨ls, hls⟩ := ih h.2
      refine ⟨l :: ls, ?_⟩
      rw [resolveEach, hl, hls]
      rfl

theorem literals?_eq_some (h : d.literals? t = .ok (some ls)) :
    (∃ l, d.resolve t = .ok (.literal l) ∧ ls = [l]) ∨
      ∃ members, d.resolve t = .ok (.union members) ∧
        List.Forall₂ (fun m l => d.resolve m = .ok (.literal l)) members ls := by
  unfold literals? at h
  split at h
  · cases h
  · rename_i l ht
    cases h
    exact Or.inl ⟨l, ht, rfl⟩
  · rename_i members ht
    cases hts : d.resolveEach members with
    | error fault =>
        rw [hts] at h
        cases h
    | ok ts =>
        rw [hts] at h
        have hls : ts.mapM Ty.literal? = some ls := Except.ok.inj h
        have hpairs := resolveEach_eq_ok hts
        rw [Ty.mapM_literal?_eq_some.mp hls, List.forall₂_map_right_iff] at hpairs
        exact Or.inr ⟨members, ht, hpairs⟩
  · cases h

theorem mem_literals?_iff (h : d.literals? t = .ok (some ls)) : l ∈ ls ↔ d.Allows t l := by
  rcases literals?_eq_some h with ⟨l', ht, rfl⟩ | ⟨members, ht, hpairs⟩
  · rw [List.mem_singleton]
    constructor
    · rintro rfl
      exact .literal ht
    · rintro (hl | ⟨⟨members, hmembers, -⟩, -⟩)
      · cases ht.symm.trans hl
        rfl
      · cases ht.symm.trans hmembers
  · constructor
    · intro hl
      obtain ⟨m, hm, hml⟩ := exists_of_mem_forall₂ hpairs hl
      exact .member ⟨members, ht, hm⟩ hml
    · rintro (hl | ⟨⟨members', hmembers, hm⟩, hml⟩)
      · cases ht.symm.trans hl
      · cases ht.symm.trans hmembers
        obtain ⟨l', hl', hml'⟩ := exists_of_mem_forall₂ hpairs.flip hm
        cases hml.symm.trans hml'
        exact hl'

theorem exists_literals?_iff : (∃ ls, d.literals? t = .ok (some ls)) ↔ d.LiteralOnly t := by
  constructor
  · rintro ⟨ls, h⟩
    rcases literals?_eq_some h with ⟨l, ht, -⟩ | ⟨members, ht, hpairs⟩
    · exact .literal ht
    · refine .union ht fun m hm => ?_
      obtain ⟨l, -, hml⟩ := exists_of_mem_forall₂ hpairs.flip hm
      exact ⟨l, hml⟩
  · rintro (⟨ht⟩ | ⟨ht, hmembers⟩)
    · rename_i l
      exact ⟨[l], by rw [literals?, ht]⟩
    · obtain ⟨ls, hls⟩ := resolveEach_of_literals hmembers
      refine ⟨ls, ?_⟩
      simp only [literals?, ht, hls]
      exact congrArg Except.ok (Ty.mapM_literal?_eq_some.mpr rfl)

end Literals

section Names

/-- A type seen as an object with a required field, of a given name, that allows literals only. -/
def HasTag (d : Declarations) (view : Option ObjectTy) (name : String) : Prop :=
  ∃ o s, view = some o ∧ o.get? name = some s ∧ s.optional = false ∧ d.LiteralOnly s.type

theorem tagLiterals?_eq_some (h : d.tagLiterals? view name = .ok (some ls)) :
    ∃ o s, view = some o ∧ o.get? name = some s ∧ s.optional = false ∧
      d.literals? s.type = .ok (some ls) := by
  obtain ⟨o, rfl⟩ := exists_view_of_tagLiterals? h
  unfold tagLiterals? at h
  split at h
  · rename_i s hs
    split at h
    · cases h
    · rename_i hrequired
      exact ⟨o, s, rfl, hs, by simpa using hrequired, h⟩
  · cases h

theorem exists_tagLiterals?_iff :
    (∃ ls, d.tagLiterals? view name = .ok (some ls)) ↔ d.HasTag view name := by
  constructor
  · rintro ⟨ls, h⟩
    obtain ⟨o, s, hview, hs, hrequired, hls⟩ := tagLiterals?_eq_some h
    exact ⟨o, s, hview, hs, hrequired, exists_literals?_iff.mp ⟨ls, hls⟩⟩
  · rintro ⟨o, s, rfl, hs, hrequired, honly⟩
    obtain ⟨ls, hls⟩ := exists_literals?_iff.mpr honly
    refine ⟨ls, ?_⟩
    simp only [tagLiterals?, Option.bind_some, hs, hrequired]
    exact hls

/-- A tag that may hold a literal. -/
def MayHold (d : Declarations) (view : Option ObjectTy) (name : String) (l : Literal) : Prop :=
  ∃ o s x, view = some o ∧ o.get? name = some s ∧ s.optional = false ∧ d.LiteralOnly s.type ∧
    d.Allows s.type x ∧ x.same l = true

variable {tag : Option (List Literal)}

theorem isNone_tagLiterals? (h : d.tagLiterals? view name = .ok tag) :
    tag.isNone = true ↔ ¬ d.HasTag view name := by
  rw [← exists_tagLiterals?_iff, h]
  cases tag <;> simp

theorem any_tagLiterals? (h : d.tagLiterals? view name = .ok tag) :
    (tag.getD []).any (·.same l) = true ↔ d.MayHold view name l := by
  constructor
  · intro hany
    cases tag with
    | none => simp at hany
    | some ls =>
        obtain ⟨o, s, hview, hs, hrequired, hls⟩ := tagLiterals?_eq_some h
        obtain ⟨x, hx, hsame⟩ := List.any_eq_true.mp hany
        exact ⟨o, s, x, hview, hs, hrequired, exists_literals?_iff.mp ⟨ls, hls⟩,
          (mem_literals?_iff hls).mp hx, hsame⟩
  · rintro ⟨o, s, x, hview, hs, hrequired, honly, hallows, hsame⟩
    obtain ⟨ls, hls⟩ := exists_tagLiterals?_iff.mpr ⟨o, s, hview, hs, hrequired, honly⟩
    cases h.symm.trans hls
    obtain ⟨o', s', hview', hs', -, hls'⟩ := tagLiterals?_eq_some h
    cases hview.symm.trans hview'
    cases hs.symm.trans hs'
    exact List.any_eq_true.mpr ⟨x, (mem_literals?_iff hls').mpr hallows, hsame⟩

theorem allTagged_eq_ok {b : Bool} (h : d.allTagged name views = .ok b) :
    b = true ↔ ∀ view ∈ views, d.HasTag view name := by
  induction views with
  | nil =>
      cases h
      simp
  | cons first rest ih =>
      rw [List.forall_mem_cons, ← exists_tagLiterals?_iff]
      unfold allTagged at h
      split at h
      · cases h
      · rename_i hnone
        cases h
        simp [hnone]
      · rename_i ls hls
        rw [ih h]
        simp [hls]

theorem mem_tagsAmong_iff {names result : List String} (h : d.tagsAmong views names = .ok result) :
    name ∈ result ↔ name ∈ names ∧ ∀ view ∈ views, d.HasTag view name := by
  induction names generalizing result with
  | nil =>
      cases h
      simp
  | cons first rest ih =>
      unfold tagsAmong at h
      split at h
      · cases h
      · rename_i htagged
        have hall := (allTagged_eq_ok htagged).mp rfl
        cases hrest : d.tagsAmong views rest with
        | error fault =>
            rw [hrest] at h
            cases h
        | ok others =>
            rw [hrest] at h
            cases h
            rw [List.mem_cons, List.mem_cons, ih hrest]
            constructor
            · rintro (rfl | ⟨hname, hviews⟩)
              · exact ⟨Or.inl rfl, hall⟩
              · exact ⟨Or.inr hname, hviews⟩
            · rintro ⟨rfl | hname, hviews⟩
              · exact Or.inl rfl
              · exact Or.inr ⟨hname, hviews⟩
      · rename_i htagged
        have hnot : ¬ ∀ view ∈ views, d.HasTag view first :=
          fun hall => Bool.false_ne_true ((allTagged_eq_ok htagged).mpr hall)
        rw [ih h, List.mem_cons]
        constructor
        · exact fun ⟨hname, hviews⟩ => ⟨Or.inr hname, hviews⟩
        · rintro ⟨rfl | hname, hviews⟩
          · exact absurd hviews hnot
          · exact ⟨hname, hviews⟩

/-- The tag names of a type are the names that are tags of all its alternatives. -/
theorem mem_tagNames_iff {names : List String} {alts : List Ty} (h : d.tagNames t = .ok names)
    (halts : d.alternatives t = .ok alts) :
    name ∈ names ↔ ∀ b ∈ alts, ∃ view, d.objectView b = .ok view ∧ d.HasTag view name := by
  simp only [tagNames, halts] at h
  cases hviews : d.objectViews alts with
  | error fault =>
      rw [hviews] at h
      cases h
  | ok views =>
      have hpairs := objectViews_eq_ok hviews
      have hall : (∀ b ∈ alts, ∃ view, d.objectView b = .ok view ∧ d.HasTag view name) ↔
          ∀ view ∈ views, d.HasTag view name := by
        constructor
        · intro hb view hview
          obtain ⟨b, hmem, hbview⟩ := exists_of_mem_forall₂ hpairs hview
          obtain ⟨view', hbview', htag⟩ := hb b hmem
          cases hbview.symm.trans hbview'
          exact htag
        · intro hv b hb
          obtain ⟨view, hview, hbview⟩ := exists_of_mem_forall₂ hpairs.flip hb
          exact ⟨view, hbview, hv view hview⟩
      rw [hall]
      match views, hviews with
      | [], hviews => simp [hviews] at h
      | none :: rest, hviews =>
          simp only [hviews] at h
          cases h
          simp [HasTag]
      | some first :: rest, hviews =>
          simp only [hviews] at h
          rw [mem_tagsAmong_iff h, and_iff_right_iff_imp]
          intro htags
          -- a tag of the first alternative is one of its fields
          obtain ⟨o, s, ho, hs, -, -⟩ := htags _ List.mem_cons_self
          cases ho
          exact List.mem_map_of_mem (Assoc.mem_of_lookup hs)

end Names

end Declarations

end StructuralTypes
