import StructuralTypes.Proofs.Branches
import StructuralTypes.Proofs.Resolvable

namespace StructuralTypes

namespace Ty

theorem flatUnion_of_differ {m m' : Ty} {rest : List Ty} (hlone : ∀ b ∈ m :: m' :: rest, b.Lone)
    (hdiffer : (m :: m' :: rest).Pairwise fun b b' => (b == b') = false) :
    flatUnion (m :: m' :: rest) = .ok (.union (m :: m' :: rest)) := by
  unfold flatUnion
  rw [flatMap_ownMembers hlone, buildUnion_of_native (by simp) fun b hb => (hlone b hb).native,
    distinct_eq_self hdiffer]

theorem flatUnion_singleton {m : Ty} (hlone : m.Lone) : flatUnion [m] = .ok m := by
  have hall : ∀ b ∈ [m], b.Lone := by simpa using hlone
  unfold flatUnion
  rw [flatMap_ownMembers hall, buildUnion_of_native (by simp) fun b hb => (hall b hb).native]
  rfl

end Ty

namespace Declarations

open Assignability Relation

variable {d : Declarations} {test : Test} {t u : Ty} {view : Option ObjectTy}

section Certain

/-- A test is certainly true of a type: it is seen as an object whose tag may hold the value and
nothing else, or that requires the field. -/
def Certain (d : Declarations) (test : Test) (t : Ty) : Prop :=
  match test with
  | .tag field wanted => ∃ view, d.objectView t = .ok view ∧ d.MayHold view field wanted ∧
      ∀ l, d.MayHold view field l → l.same wanted = true
  | .present field => ∃ o s, d.objectView t = .ok (some o) ∧ o.get? field = some s ∧
      s.optional = false

theorem certain_tag_iff {field : String} {wanted : Literal} {tag : Option (List Literal)}
    (htag : d.tagLiterals? view field = .ok tag) :
    Narrowing.certain d (.tag field wanted) view = .ok true ↔
      d.MayHold view field wanted ∧ ∀ l, d.MayHold view field l → l.same wanted = true := by
  simp only [Narrowing.certain, htag, ← any_tagLiterals? htag]
  cases tag with
  | none => simp [Except.map]
  | some ls =>
      cases ls with
      | nil => simp [Except.map]
      | cons l rest =>
          have hcertain : Except.map (fun _ => (l :: rest).all (·.same wanted)) (.ok ()) =
              (.ok true : Except Fault Bool) ↔ ∀ x ∈ l :: rest, x.same wanted = true := by
            simp [Except.map]
          refine hcertain.trans ⟨fun hall => ⟨?_, fun l' hany => ?_⟩, fun h x hx => ?_⟩
          · exact List.any_eq_true.mpr ⟨l, List.mem_cons_self, hall l List.mem_cons_self⟩
          · obtain ⟨x, hx, hsame⟩ := List.any_eq_true.mp hany
            exact Literal.same_trans (Literal.same_symm hsame) (hall x hx)
          · exact h.2 x (List.any_eq_true.mpr ⟨x, hx, Literal.same_refl x⟩)

theorem certain_iff (test : Test) (hview : d.objectView t = .ok view) :
    Narrowing.certain d test view = .ok true ↔ d.Certain test t := by
  cases test with
  | tag field wanted =>
      have hcertain : d.Certain (.tag field wanted) t ↔ d.MayHold view field wanted ∧
          ∀ l, d.MayHold view field l → l.same wanted = true := by
        simp only [Certain, hview, Except.ok.injEq, exists_eq_left']
      rw [hcertain]
      cases htag : d.tagLiterals? view field with
      | ok tag => exact certain_tag_iff htag
      | error fault =>
          -- without literals there is no tag that may hold one
          have hnot : ¬ d.MayHold view field wanted := by
            rintro ⟨o, s, x, ho, hs, hrequired, honly, -⟩
            obtain ⟨ls, hls⟩ := exists_tagLiterals?_iff.mpr ⟨o, s, ho, hs, hrequired, honly⟩
            cases htag.symm.trans hls
          simp [Narrowing.certain, htag, hnot, Except.map]
  | present field =>
      simp only [Certain, hview, Narrowing.certain, requiresField, Except.ok.injEq]
      cases view with
      | none => simp
      | some o => cases hs : o.get? field <;> simp [hs]

/-- Whether a test is certainly true of a type, as far as this can be found out. -/
def certainly (d : Declarations) (test : Test) (t : Ty) : Bool :=
  match (d.objectView t).bind (Narrowing.certain d test) with
  | .ok c => c
  | .error _ => false

theorem certainly_iff : d.certainly test t = true ↔ d.Certain test t := by
  unfold certainly
  cases hview : d.objectView t with
  | error fault => cases test <;> simp [Certain, hview, Except.bind]
  | ok view =>
      rw [← certain_iff test hview]
      cases hc : Narrowing.certain d test view <;> simp [Except.bind, hc]

instance : Decidable (d.Certain test t) :=
  decidable_of_iff _ certainly_iff

theorem certain_of_resolve {r : Ty} (test : Test) (h : d.resolve t = .ok r) :
    d.Certain test t ↔ d.Certain test r := by
  have hself : d.resolve r = .ok r := resolve_of_not_named (isNamed_of_resolve h)
  have hview : d.objectView t = d.objectView r := by
    rw [objectView, objectView, h, hself]
  cases test <;> simp only [Certain, hview]

/-- It can be found out whether a test is certainly true of a type. -/
def Decided (d : Declarations) (test : Test) (t : Ty) : Prop :=
  ∃ view c, d.objectView t = .ok view ∧ Narrowing.certain d test view = .ok c

theorem Resolves.decided (h : d.Resolves u) (ht : Reachable d u u t) (test : Test) :
    d.Decided test t := by
  obtain ⟨view, hview⟩ := h.objectView ht
  refine ⟨view, ?_⟩
  cases test with
  | tag field wanted =>
      obtain ⟨tag, htag⟩ := h.tagLiterals? (seen_of_objectView ht hview) field
      obtain ⟨c, hc, -⟩ := Narrowing.certain_tag wanted htag
      exact ⟨c, hview, hc⟩
  | present field => exact ⟨_, hview, rfl⟩

theorem Decided.resolve {r : Ty} (h : d.Decided test t) (hr : d.resolve t = .ok r) :
    d.Decided test r := by
  have hself : d.resolve r = .ok r := resolve_of_not_named (isNamed_of_resolve hr)
  obtain ⟨view, c, hview, hc⟩ := h
  refine ⟨view, c, ?_, hc⟩
  rw [objectView, hr] at hview
  rw [objectView, hself]
  exact hview

theorem uncertain_eq_filter {members : List Ty} (h : ∀ b ∈ members, d.Decided test b) :
    Narrowing.uncertain d test members = .ok (members.filter fun b => ¬ d.Certain test b) := by
  induction members with
  | nil => rfl
  | cons first rest ih =>
      rw [List.forall_mem_cons] at h
      obtain ⟨view, c, hview, hc⟩ := h.1
      have hiff := certain_iff test hview
      unfold Narrowing.uncertain
      simp only [hview, hc, ih h.2]
      rw [hc] at hiff
      cases c with
      | true => simp [← hiff]
      | false => simp [← hiff, Except.map]

end Certain

section Separate

variable {left : List Ty} {m : Ty}

/-- Types that can be told apart again when they are put together to a union: they differ, and each
stands for something else than a union. -/
structure Separate (d : Declarations) (left : List Ty) : Prop where
  lone : ∀ b ∈ left, b.Lone
  stands : ∀ b ∈ left, ∃ r, d.resolve b = .ok r ∧ r.Lone
  differ : left.Pairwise fun b b' => (b == b') = false

theorem Separate.filter (h : d.Separate left) (p : Ty → Bool) : d.Separate (left.filter p) where
  lone b hb := h.lone b (List.mem_of_mem_filter hb)
  stands b hb := h.stands b (List.mem_of_mem_filter hb)
  differ := h.differ.filter p

theorem Separate.of_resolve {r : Ty} (h : d.Separate [m]) (hr : d.resolve m = .ok r) :
    d.Separate [r] := by
  obtain ⟨r', hr', hlone⟩ := h.stands m (List.mem_singleton_self m)
  cases hr.symm.trans hr'
  have hself : d.resolve r = .ok r := resolve_of_not_named (isNamed_of_resolve hr)
  refine ⟨by simpa using hlone, ?_, List.pairwise_singleton _ r⟩
  simpa [hself] using hlone

theorem gatherMembers_of_separate {enter : List Ty → Gathering → Except Fault Gathering}
    {members : List Ty} {g : Gathering} (hstands : ∀ b ∈ members, ∃ r, d.resolve b = .ok r ∧ r.Lone)
    (hdiffer : (g.found ++ members).Pairwise fun b b' => (b == b') = false) :
    d.gatherMembers enter members g = .ok { g with found := g.found ++ members } := by
  induction members generalizing g with
  | nil => simp [gatherMembers]
  | cons m rest ih =>
      rw [List.forall_mem_cons] at hstands
      obtain ⟨r, hr, hlone⟩ := hstands.1
      have hnew : g.found.any (· == m) = false := by
        rw [List.any_eq_false]
        intro b hb
        rw [(List.pairwise_append.mp hdiffer).2.2 b hb m List.mem_cons_self]
        exact Bool.false_ne_true
      have hadd : g.add m = { g with found := g.found ++ [m] } := by
        rw [Gathering.add, hnew]
        rfl
      have hrest : d.gatherMembers enter rest (g.add m) =
          .ok { g with found := g.found ++ m :: rest } := by
        rw [hadd, ih hstands.2 (by simpa using hdiffer)]
        simp
      unfold gatherMembers
      rw [hr]
      cases r with
      | union us => exact absurd rfl (hlone.not_union us)
      | _ => exact hrest

theorem Separate.alternatives (h : d.Separate left) :
    d.alternatives (.union left) = .ok left := by
  have hgather : d.gatherUnion ((Ty.union left).size + d.size + 1) left .start =
      .ok { found := left, entered := [.union left] } :=
    gatherMembers_of_separate h.stands (by simpa [Gathering.start] using h.differ)
  unfold Declarations.alternatives
  simp only [resolve, hgather]
  rfl

theorem alternatives_of_lone {r : Ty} (hr : d.resolve t = .ok r) (hlone : r.Lone) :
    d.alternatives t = .ok [r] := by
  unfold Declarations.alternatives
  rw [hr]
  cases r with
  | union us => exact absurd rfl (hlone.not_union us)
  | _ => rfl

/-- No member of members stands for a value that is no type. -/
def NativeMembers (d : Declarations) (u : Ty) : Prop :=
  ∀ b, ReflTransGen d.HasMember u b → ∀ v, d.resolve b ≠ .ok (.foreign v)

theorem reachable_of_leads {b : Ty} (h : ReflTransGen d.HasMember u b) : Reachable d u u b := by
  induction h with
  | refl => exact .source
  | tail _ hstep ih => exact hstep.reachable ih

theorem nativeMembers_of_pool (h : ∀ t ∈ pool d u u, t.foreign? = none) : d.NativeMembers u := by
  intro b hb v hv
  cases h _ ((reachable_of_leads hb).resolve hv).mem_pool

theorem separate_of_alternatives (hd : d.WellFormed) (hu : u.WellFormed)
    (hnative : d.NativeMembers u) {alts : List Ty} (halts : d.alternatives u = .ok alts) :
    d.Separate alts where
  lone b hb := lone_of_native hd hu (hnative u .refl) halts hb
  stands b hb := by
    have hlone := lone_of_native hd hu (hnative u .refl) halts hb
    rcases alternatives_cases halts with ⟨members, hmembers⟩ | ⟨r, hr, -, rfl⟩
    · obtain ⟨hleads, r, hr, hunion⟩ := leads_of_mem_alternatives hmembers halts hb
      refine ⟨r, hr, hd.resolve hlone.wellFormed hr, ?_, hunion⟩
      cases r with
      | foreign v => exact absurd hr (hnative b hleads.to_reflTransGen v)
      | _ => rfl
    · obtain rfl := List.mem_singleton.mp hb
      exact ⟨b, resolve_of_not_named (isNamed_of_resolve hr), hlone⟩
  differ := alternatives_pairwise halts

end Separate

section Assembled

variable {left : List Ty} {rest : Option Ty}

/-- What is left, put together: nothing, a type that stands for the only one that is left, or the
union. -/
inductive Assembled (d : Declarations) : List Ty → Option Ty → Prop
  | none : Assembled d [] none
  | lone {m t : Ty} (h : d.resolve t = d.resolve m) : Assembled d [m] (some t)
  | union (m m' : Ty) (rest : List Ty) :
      Assembled d (m :: m' :: rest) (some (.union (m :: m' :: rest)))

/-- The alternatives of what is left, as what they stand for; nothing has none. -/
def structures (d : Declarations) : Option Ty → Except Fault (List Ty)
  | none => .ok []
  | some t => (d.alternatives t).bind d.resolveEach

/-- Excludes from what is left; from nothing nothing is left. -/
def remainderOf (d : Declarations) (test : Test) : Option Ty → Except Fault (Option Ty)
  | none => .ok none
  | some t => d.remainder t test

/-- The same types are put together in one way, up to what a single one stands for. -/
theorem Assembled.unique {rest' : Option Ty} (h : d.Assembled left rest)
    (h' : d.Assembled left rest') : rest.map d.resolve = rest'.map d.resolve := by
  cases h with
  | none =>
      cases h'
      rfl
  | lone h =>
      cases h' with
      | lone h' => simp [h, h']
  | union m m' others =>
      cases h'
      rfl

theorem Assembled.structures (hseparate : d.Separate left) (h : d.Assembled left rest) :
    d.structures rest = d.resolveEach left := by
  cases h with
  | none => rfl
  | @lone m t h =>
      obtain ⟨r, hr, hlone⟩ := hseparate.stands m (List.mem_singleton_self m)
      have hself : d.resolve r = .ok r := resolve_of_not_named (isNamed_of_resolve hr)
      rw [Declarations.structures, alternatives_of_lone (h.trans hr) hlone]
      simp only [Except.bind, resolveEach, hself, hr]
  | union m m' others =>
      rw [Declarations.structures, hseparate.alternatives]
      rfl

/-- Excluding from a type with separate alternatives puts together those that are kept. -/
theorem remainder_of_separate {alts : List Ty} (halts : d.alternatives t = .ok alts)
    (hseparate : d.Separate alts) (hdecided : ∀ b ∈ alts, d.Decided test b) :
    ∃ rest, d.remainder t test = .ok rest ∧
      d.Assembled (alts.filter fun b => ¬ d.Certain test b) rest := by
  have hkept := hseparate.filter fun b => ¬ d.Certain test b
  simp only [remainder, halts, uncertain_eq_filter hdecided]
  generalize alts.filter (fun b => ¬ d.Certain test b) = kept at hkept
  cases kept with
  | nil => exact ⟨none, rfl, .none⟩
  | cons m others =>
      cases others with
      | nil =>
          refine ⟨some m, ?_, .lone rfl⟩
          simp only [Ty.flatUnion_singleton (hkept.lone m (List.mem_singleton_self m))]
          rfl
      | cons m' others =>
          refine ⟨some (.union (m :: m' :: others)), ?_, .union m m' others⟩
          simp only [Ty.flatUnion_of_differ hkept.lone hkept.differ]
          rfl

theorem Assembled.remainderOf (hseparate : d.Separate left)
    (hdecided : ∀ b ∈ left, d.Decided test b) (h : d.Assembled left rest) :
    ∃ rest', d.remainderOf test rest = .ok rest' ∧
      d.Assembled (left.filter fun b => ¬ d.Certain test b) rest' := by
  cases h with
  | none => exact ⟨_, rfl, .none⟩
  | union m m' others => exact remainder_of_separate hseparate.alternatives hseparate hdecided
  | @lone m t h =>
      -- a single name is left as what it stands for
      obtain ⟨r, hr, hlone⟩ := hseparate.stands m (List.mem_singleton_self m)
      have hdecided' : ∀ b ∈ [r], d.Decided test b := by
        simpa using (hdecided m (List.mem_singleton_self m)).resolve hr
      obtain ⟨rest', hrest', hassembled⟩ := remainder_of_separate
        (alternatives_of_lone (h.trans hr) hlone) (hseparate.of_resolve hr) hdecided'
      refine ⟨rest', hrest', ?_⟩
      have hself : d.resolve r = .ok r := resolve_of_not_named (isNamed_of_resolve hr)
      have hcertain := certain_of_resolve test hr
      by_cases hm : d.Certain test m
      · simpa [hm, hcertain.mp hm] using hassembled
      · have hr' : ¬ d.Certain test r := fun hr' => hm (hcertain.mpr hr')
        simp only [hr', hm, not_false_eq_true, decide_true, List.filter_cons_of_pos,
          List.filter_nil] at hassembled ⊢
        cases hassembled with
        | lone h' => exact .lone (h'.trans (hself.trans hr.symm))

theorem resolveEach_filter {alts all : List Ty} (test : Test) (h : d.resolveEach alts = .ok all) :
    d.resolveEach (alts.filter fun b => ¬ d.Certain test b) =
      .ok (all.filter fun b => ¬ d.Certain test b) := by
  have hpairs := resolveEach_eq_ok h
  clear h
  induction hpairs with
  | nil => rfl
  | @cons b r alts all hr _ ih =>
      have hcertain := certain_of_resolve test hr
      by_cases hb : d.Certain test b
      · simpa [hb, hcertain.mp hb] using ih
      · have hr' : ¬ d.Certain test r := fun hr' => hb (hcertain.mpr hr')
        simp only [hb, hr', not_false_eq_true, decide_true, List.filter_cons_of_pos, resolveEach,
          hr, ih]
        rfl

/-- Excluding is a filter: what is left are, in their order, the alternatives of which the test is
not certain. Excluding once more leaves the same, and so does excluding two tests in either order,
up to what a single name stands for. -/
theorem remainder_filters (hd : d.WellFormed) (hu : u.WellFormed) (hresolves : d.Resolves u)
    (hnative : d.NativeMembers u) (test test' : Test) :
    ∃ all rest, d.structures (some u) = .ok all ∧ d.remainder u test = .ok rest ∧
      d.structures rest = .ok (all.filter fun t => ¬ d.Certain test t) ∧
      (∃ again, d.remainderOf test rest = .ok again ∧
        again.map d.resolve = rest.map d.resolve ∧ d.structures again = d.structures rest) ∧
      ∃ rest' both both' common, d.remainder u test' = .ok rest' ∧
        d.remainderOf test' rest = .ok both ∧ d.remainderOf test rest' = .ok both' ∧
        both.map d.resolve = both'.map d.resolve ∧
        d.structures both = .ok common ∧ d.structures both' = .ok common := by
  obtain ⟨alts, halts⟩ := hresolves.alternatives
  have hseparate := separate_of_alternatives hd hu hnative halts
  have hreach : ∀ b ∈ alts, Reachable d u u b :=
    fun b hb => reachable_of_mem_alternatives .source halts hb
  have hdecided : ∀ test, ∀ b ∈ alts, d.Decided test b :=
    fun test b hb => hresolves.decided (hreach b hb) test
  obtain ⟨all, hall⟩ := exists_each d.resolve d.resolveEach rfl resolveEach_cons
    fun b hb => hresolves b (hreach b hb)
  -- what is left of what a first test leaves, for any two tests
  have hfirst := fun test => remainder_of_separate halts hseparate (hdecided test)
  have hkept := fun test => hseparate.filter fun b => ¬ d.Certain test b
  have hdecided' : ∀ test test', ∀ b ∈ alts.filter (fun b => ¬ d.Certain test b),
      d.Decided test' b := fun _ test' b hb => hdecided test' b (List.mem_of_mem_filter hb)
  obtain ⟨rest, hrest, hassembled⟩ := hfirst test
  obtain ⟨rest', hrest', hassembled'⟩ := hfirst test'
  refine ⟨all, rest, ?_, hrest, ?_, ?_, rest', ?_⟩
  · simp only [structures, halts]
    exact hall
  · rw [hassembled.structures (hkept test)]
    exact resolveEach_filter test hall
  · obtain ⟨again, hagain, htwice⟩ :=
      hassembled.remainderOf (hkept test) (hdecided' test test)
    rw [List.filter_filter] at htwice
    simp only [Bool.and_self] at htwice
    refine ⟨again, hagain, htwice.unique hassembled, ?_⟩
    rw [htwice.structures (hkept test), hassembled.structures (hkept test)]
  · obtain ⟨both, hboth, hone⟩ := hassembled.remainderOf (hkept test) (hdecided' test test')
    obtain ⟨both', hboth', hother⟩ := hassembled'.remainderOf (hkept test') (hdecided' test' test)
    have hcomm : (alts.filter fun b => ¬ d.Certain test' b).filter (fun b => ¬ d.Certain test b) =
        (alts.filter fun b => ¬ d.Certain test b).filter fun b => ¬ d.Certain test' b := by
      rw [List.filter_filter, List.filter_filter]
      exact List.filter_congr fun b _ => Bool.and_comm _ _
    rw [hcomm] at hother
    have hseparate' := (hkept test).filter fun b => ¬ d.Certain test' b
    have hcommon := resolveEach_filter test' (resolveEach_filter test hall)
    exact ⟨both, both', _, hrest', hboth, hboth', hone.unique hother,
      (hone.structures hseparate').trans hcommon, (hother.structures hseparate').trans hcommon⟩

end Assembled

open Narrowing in
/-- Where a round shape is no ellipse a circle is left, under its name. Excluding ellipses once more
leaves what the name stands for, as does excluding discs, which a circle need not be. -/
theorem remainder_filters_round :
    ∃ all again both both', shapes.structures (some (.named "Round")) = .ok all ∧
      shapes.remainder (.named "Round") (.tag "kind" (.text "ellipse")) =
        .ok (some (.named "Circle")) ∧
      shapes.structures (some (.named "Circle")) =
        .ok (all.filter fun t => ¬ shapes.Certain (.tag "kind" (.text "ellipse")) t) ∧
      shapes.remainder (.named "Circle") (.tag "kind" (.text "ellipse")) = .ok again ∧
      again.map shapes.resolve = some (shapes.resolve (.named "Circle")) ∧
      shapes.remainder (.named "Circle") (.tag "kind" (.text "disc")) = .ok both ∧
      both.map shapes.resolve = both'.map shapes.resolve ∧ both' = some (.named "Circle") := by
  have hd : shapes.WellFormed := by decide
  have hrest : shapes.remainder (.named "Round") (.tag "kind" (.text "ellipse")) =
      .ok (some (.named "Circle")) := rfl
  obtain ⟨all, rest, hall, hrest', hfiltered, ⟨again, hagain, hsame, -⟩,
      other, both, both', -, hother, hboth, hboth', hcommon, -⟩ :=
    remainder_filters (u := .named "Round") hd (by decide) (resolves_of_pool (by decide))
      (nativeMembers_of_pool (by decide)) (.tag "kind" (.text "ellipse"))
      (.tag "kind" (.text "disc"))
  cases hrest.symm.trans hrest'
  have hother' : shapes.remainder (.named "Round") (.tag "kind" (.text "disc")) =
      .ok (some (.union [.named "Circle", kind "ellipse"])) := rfl
  cases hother'.symm.trans hother
  have hlast : both' = some (.named "Circle") := (Except.ok.inj hboth').symm
  exact ⟨all, again, both, both', hall, hrest, hfiltered, hagain, hsame, hboth, hcommon, hlast⟩

end Declarations

end StructuralTypes
