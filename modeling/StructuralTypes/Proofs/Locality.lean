import StructuralTypes.Proofs.Branches
import StructuralTypes.Proofs.Tags

/-!
What declarations say about names that a comparison or a narrowing cannot come to has no influence
on its outcome. Under declarations that agree on all other names two runs go in lock step: they meet
the same types and resolve them to the same. How far a run may go is read off all declarations, so
the runs are compared with a bound that is large enough for both.
-/

namespace StructuralTypes

open Assignability

namespace Assignability

variable {judge judge' : Judge}

theorem judgeAll_congr {obligations : List Obligation}
    (h : ∀ path a b, .fits path a b ∈ obligations → ∀ A, judge a b A = judge' a b A)
    (A : Assumptions) : judgeAll judge obligations A = judgeAll judge' obligations A := by
  induction obligations generalizing A with
  | nil => rfl
  | cons o rest ih =>
      have hrest := ih fun path a b hmem => h path a b (List.mem_cons_of_mem o hmem)
      cases o with
      | fault fault => rfl
      | unmet path reason a b => rfl
      | fits path a b =>
          rw [judgeAll, judgeAll, ← h path a b List.mem_cons_self A]
          split
          · rfl
          · exact hrest _
          · rfl

theorem judgeSome_congr {s t : Ty} {start : Assumptions} {members : List Ty}
    (h : ∀ m ∈ members, ∀ A, judge s m A = judge' s m A) (causes : List Verdict)
    (A : Assumptions) :
    judgeSome judge s t start members causes A = judgeSome judge' s t start members causes A := by
  induction members generalizing causes A with
  | nil => rfl
  | cons m rest ih =>
      rw [List.forall_mem_cons] at h
      rw [judgeSome, judgeSome, ← h.1 A]
      split
      · rfl
      · rfl
      · exact ih h.2 _ _

theorem judgeRequirement_congr {s t : Ty} {requirement : Requirement}
    (h : ∀ a b, requirement.Asks s a b → ∀ A, judge a b A = judge' a b A) (A : Assumptions) :
    judgeRequirement judge s t A requirement = judgeRequirement judge' s t A requirement := by
  cases requirement with
  | all obligations => exact judgeAll_congr (fun path a b hmem => h a b ⟨path, hmem⟩) A
  | someMember members => exact judgeSome_congr (fun m hm => h s m ⟨rfl, hm⟩) [] A

end Assignability

namespace Ty

theorem eq_toTy_of_object? {u : Ty} {o : ObjectTy} (h : u.object? = some o) : u = o.toTy := by
  cases u with
  | object fields index =>
      cases h
      rfl
  | _ => cases h

end Ty

namespace Declarations

variable {d d' : Declarations}

section Bounds

theorem mem_names_of_target? {name : String} {u : Ty} (h : d.target? name = some u) :
    name ∈ Assoc.names d.bindings :=
  List.mem_map_of_mem (mem_bindings_of_target? h)

theorem length_le_count {chain : List String} (hnodup : chain.Nodup)
    (hdeclared : chain ⊆ Assoc.names d.bindings) : chain.length ≤ d.count := by
  have hle := (hnodup.subperm hdeclared).length_le
  rwa [Assoc.names, List.length_map] at hle

theorem chain_append {chain : List String} {name : String} {u : Ty} (hnodup : chain.Nodup)
    (hdeclared : chain ⊆ Assoc.names d.bindings) (hnew : name ∉ chain)
    (h : d.target? name = some u) :
    (chain ++ [name]).Nodup ∧ chain ++ [name] ⊆ Assoc.names d.bindings := by
  refine ⟨List.nodup_append.mpr ⟨hnodup, List.nodup_singleton name, ?_⟩, ?_⟩
  · rintro a ha b hb rfl
    rw [List.mem_singleton] at hb
    exact hnew (hb ▸ ha)
  · exact List.append_subset.mpr ⟨hdeclared, by simpa using mem_names_of_target? h⟩

/-- A chain of distinct declared names never comes to the end of a budget that is large enough, so a
larger one gives the same. -/
theorem follow_succ {budget : Nat} {chain : List String} {name : String} (hnodup : chain.Nodup)
    (hdeclared : chain ⊆ Assoc.names d.bindings) (hbudget : d.count ≤ budget + chain.length) :
    d.follow (budget + 1) chain name = d.follow budget chain name := by
  induction budget generalizing chain name with
  | zero =>
      unfold follow
      split
      · rfl
      · rename_i hnew
        split
        · rfl
        · rename_i next htarget
          -- the chain with this name would have more names than are declared
          obtain ⟨hnodup', hdeclared'⟩ :=
            chain_append hnodup hdeclared (by simpa using hnew) htarget
          have hle := length_le_count hnodup' hdeclared'
          rw [List.length_append, List.length_singleton] at hle
          omega
        · rfl
  | succ budget ih =>
      rw [follow, follow]
      split
      · rfl
      · rename_i hnew
        split
        · rfl
        · rename_i next htarget
          obtain ⟨hnodup', hdeclared'⟩ :=
            chain_append hnodup hdeclared (by simpa using hnew) htarget
          exact ih hnodup' hdeclared' (by rw [List.length_append, List.length_singleton]; omega)
        · rfl

theorem resolve_eq_follow {budget : Nat} {name : String} (hbudget : d.count ≤ budget) :
    d.resolve (.named name) = d.follow budget [] name := by
  induction budget, hbudget using Nat.le_induction with
  | base => rfl
  | succ budget hle ih => rw [ih, follow_succ .nil (List.nil_subset _) (by simpa using hle)]

theorem gatherMembers_congr {enter enter' : List Ty → Gathering → Except Fault Gathering}
    {members : List Ty} {g : Gathering}
    (hresolve : ∀ m ∈ members, d.resolve m = d'.resolve m)
    (hgrows : ∀ us g g', enter us g = .ok g' → g.entered ⊆ g'.entered)
    (henter : ∀ m ∈ members, ∀ us, d.resolve m = .ok (.union us) → ∀ g',
      g.entered ⊆ g'.entered → enter us g' = enter' us g') :
    d.gatherMembers enter members g = d'.gatherMembers enter' members g := by
  induction members generalizing g with
  | nil => rfl
  | cons m rest ih =>
      rw [List.forall_mem_cons] at hresolve henter
      have hrest : ∀ g', g.entered ⊆ g'.entered →
          d.gatherMembers enter rest g' = d'.gatherMembers enter' rest g' := by
        intro g' hsub
        apply ih hresolve.2
        intro m' hm' us hus g'' hsub'
        exact henter.2 m' hm' us hus g'' (List.Subset.trans hsub hsub')
      rw [gatherMembers, gatherMembers, ← hresolve.1]
      split
      · rfl
      · rename_i us hm
        rw [← henter.1 us hm g (List.Subset.refl _)]
        split
        · rfl
        · rename_i g' hg'
          exact hrest g' (hgrows us g g' hg')
      · exact hrest (g.add m) (by simp)

theorem gatherMembers_entered {enter : List Ty → Gathering → Except Fault Gathering}
    {members : List Ty} {g g' : Gathering}
    (hgrows : ∀ us g g', enter us g = .ok g' → g.entered ⊆ g'.entered)
    (h : d.gatherMembers enter members g = .ok g') : g.entered ⊆ g'.entered := by
  induction members generalizing g with
  | nil =>
      cases h
      exact List.Subset.refl _
  | cons m rest ih =>
      rcases gatherMembers_cons_eq_ok h with ⟨us, g₁, -, hg₁, hrest⟩ | ⟨r, -, -, hrest⟩
      · exact List.Subset.trans (hgrows us g g₁ hg₁) (ih hrest)
      · simpa using ih hrest

theorem gatherUnion_entered {budget : Nat} {members : List Ty} {g g' : Gathering}
    (h : d.gatherUnion budget members g = .ok g') : g.entered ⊆ g'.entered := by
  induction budget generalizing members g g' with
  | zero =>
      cases h
      exact List.Subset.refl _
  | succ budget ih =>
      rcases gatherUnion_succ_eq_ok h with ⟨-, rfl⟩ | ⟨-, hrun⟩
      · exact List.Subset.refl _
      · exact List.Subset.trans (List.subset_cons_self _ _)
          (gatherMembers_entered (fun _ _ _ => ih) hrun)

/-- A union that was not entered is entered with budget to spare as long as the budget exceeds the
number of unions that are left. -/
theorem gatherUnion_succ (hd : d.WellFormed) {budget : Nat} {members : List Ty} {t : Ty}
    {g : Gathering} (hmem : .union members ∈ d.atHand t) (hwf : (Ty.union members).WellFormed)
    (hbudget : g.unentered (d.atHand t) < budget) :
    d.gatherUnion (budget + 1) members g = d.gatherUnion budget members g := by
  induction budget generalizing members g with
  | zero => omega
  | succ budget ih =>
      rw [gatherUnion, gatherUnion]
      split
      · rfl
      · rename_i hnew
        have hlt := Gathering.unentered_cons_lt hmem hwf (by simpa using hnew)
        refine gatherMembers_congr (fun _ _ => rfl) (fun _ _ _ => gatherUnion_entered) ?_
        intro m hm us hus g' hsub
        have hle := Gathering.unentered_le (d.atHand t) hsub
        exact ih (mem_atHand_of_resolve (mem_atHand_of_mem_parts hm hmem) hus)
          (hd.resolve (hwf.part hm) hus) (by omega)

theorem alternatives_eq_gatherUnion (hd : d.WellFormed) {budget : Nat} {members : List Ty} {t : Ty}
    (hwf : t.WellFormed) (ht : d.resolve t = .ok (.union members))
    (hbudget : t.size + d.size + 1 ≤ budget) :
    d.alternatives t = (d.gatherUnion budget members .start).map Gathering.found := by
  induction budget, hbudget using Nat.le_induction with
  | base => rw [alternatives, ht]
  | succ budget hle ih =>
      rw [ih, gatherUnion_succ hd (union_mem_atHand ht) (hd.resolve hwf ht)
        ((unentered_start_lt d t).trans_le hle)]

end Bounds

/-- Two declarations agree on every name that can be come to from two types. -/
def AgreeFrom (d d' : Declarations) (s t : Ty) : Prop :=
  ∀ name, Reachable d s t (.named name) → d.get? name = d'.get? name

/-- The object that a type is seen as can be come to, if it is seen as one. -/
def Seen (d : Declarations) (s t : Ty) (view : Option ObjectTy) : Prop :=
  ∀ o, view = some o → Reachable d s t o.toTy

theorem seen_of_objectView {s t u : Ty} {view : Option ObjectTy} (hu : Reachable d s t u)
    (h : d.objectView u = .ok view) : d.Seen s t view := by
  rw [objectView] at h
  cases hr : d.resolve u with
  | error fault =>
      rw [hr] at h
      cases h
  | ok r =>
      rw [hr] at h
      cases h
      intro o ho
      rw [← Ty.eq_toTy_of_object? ho]
      exact (hu.resolve hr).expanded

theorem seen_of_objectViews {s t : Ty} {types : List Ty} {views : List (Option ObjectTy)}
    (htypes : ∀ u ∈ types, Reachable d s t u) (h : d.objectViews types = .ok views) :
    ∀ view ∈ views, d.Seen s t view := by
  intro view hview
  obtain ⟨u, hu, hone⟩ := exists_of_mem_forall₂ (objectViews_eq_ok h) hview
  exact seen_of_objectView (htypes u hu) hone

theorem reachable_of_mem_alternatives {s t u m : Ty} {alts : List Ty} (hu : Reachable d s t u)
    (h : d.alternatives u = .ok alts) (hm : m ∈ alts) : Reachable d s t m := by
  rcases alternatives_cases h with ⟨members, hr⟩ | ⟨r, hr, -, rfl⟩
  · have hleads := (leads_of_mem_alternatives hr h hm).1.to_reflTransGen
    clear hm
    induction hleads with
    | refl => exact hu
    | tail _ hstep ih => exact hstep.reachable ih
  · rw [List.mem_singleton.mp hm]
    exact hu.resolve hr

namespace AgreeFrom

variable {s t u : Ty}

section Resolution

theorem target? (h : d.AgreeFrom d' s t) {name : String} (hname : Reachable d s t (.named name)) :
    d.target? name = d'.target? name := by
  rw [Declarations.target?, Declarations.target?, h name hname]

theorem follow (h : d.AgreeFrom d' s t) {budget : Nat} {chain : List String} {name : String}
    (hname : Reachable d s t (.named name)) :
    d.follow budget chain name = d'.follow budget chain name := by
  induction budget generalizing chain name with
  | zero =>
      unfold Declarations.follow
      rw [h.target? hname]
  | succ budget ih =>
      rw [Declarations.follow, Declarations.follow, ← h.target? hname]
      split
      · rfl
      · split
        · rfl
        · rename_i next htarget
          exact ih (.declared hname htarget)
        · rfl

theorem resolve (h : d.AgreeFrom d' s t) (hu : Reachable d s t u) :
    d.resolve u = d'.resolve u := by
  cases u with
  | named name =>
      rw [resolve_eq_follow (le_max_left d.count d'.count), h.follow hu,
        ← resolve_eq_follow (le_max_right d.count d'.count)]
  | _ => rfl

end Resolution

section Comparing

theorem judgeNamed (h : d.AgreeFrom d' s t) {judge judge' : Judge}
    (hjudge : ∀ x y A, Reachable d s t x → Reachable d s t y → judge x y A = judge' x y A)
    {x y : Ty} (hx : Reachable d s t x) (hy : Reachable d s t y) (A : Assumptions) :
    judgeNamed d judge x y A = judgeNamed d' judge' x y A := by
  unfold Assignability.judgeNamed
  rw [← h.resolve hx, ← h.resolve hy]
  split
  · rfl
  · split
    · rfl
    · rfl
    · rename_i x' y' hx' hy'
      rw [hjudge x' y' _ (hx.resolve hx') (hy.resolve hy')]

theorem search (h : d.AgreeFrom d' s t) (policy : Policy) (depth : Nat) {x y : Ty}
    (hx : Reachable d s t x) (hy : Reachable d s t y) (A : Assumptions) :
    search (rule policy) d depth x y A = search (rule policy) d' depth x y A := by
  induction depth generalizing x y A with
  | zero => rfl
  | succ depth ih =>
      rw [Assignability.search, Assignability.search]
      unfold judgeStep
      split
      · rfl
      · rfl
      · split
        · exact h.judgeNamed (fun x y A hx hy => ih hx hy A) hx hy A
        · refine judgeRequirement_congr (fun a b hasks A => ?_) A
          obtain ⟨ha, hb, -⟩ := reachable_of_asks hx hy hasks
          exact ih ha hb A

theorem check (h : d.AgreeFrom d' s t) (hd : d.WellFormed) (hd' : d'.WellFormed)
    (hs : s.WellFormed) (ht : t.WellFormed) (policy : Policy) :
    Setting.check ⟨policy, d⟩ s t = Setting.check ⟨policy, d'⟩ s t := by
  rw [check_eq_search hd hs ht (Nat.le_max_left _ (depthBound d' s t)),
    check_eq_search hd' hs ht (Nat.le_max_right (depthBound d s t) _),
    h.search policy _ .source .target []]

end Comparing

section Narrowing

theorem gatherUnion (h : d.AgreeFrom d' s t) (budget : Nat) {members : List Ty} {g : Gathering}
    (hmembers : ∀ m ∈ members, Reachable d s t m) :
    d.gatherUnion budget members g = d'.gatherUnion budget members g := by
  induction budget generalizing members g with
  | zero => rfl
  | succ budget ih =>
      rw [Declarations.gatherUnion, Declarations.gatherUnion]
      split
      · rfl
      · refine gatherMembers_congr (fun m hm => h.resolve (hmembers m hm))
          (fun _ _ _ => gatherUnion_entered) ?_
        intro m hm us hus g' _
        exact ih fun m' hm' => ((hmembers m hm).resolve hus).part hm'

theorem alternatives (h : d.AgreeFrom d' s t) (hd : d.WellFormed) (hd' : d'.WellFormed)
    (hu : Reachable d s t u) (hwf : u.WellFormed) : d.alternatives u = d'.alternatives u := by
  have hresolve := h.resolve hu
  cases hr : d.resolve u with
  | error fault =>
      rw [hr] at hresolve
      rw [Declarations.alternatives, Declarations.alternatives, hr, ← hresolve]
  | ok r =>
      rw [hr] at hresolve
      cases r with
      | union members =>
          have hmembers : ∀ m ∈ members, Reachable d s t m := fun m hm => (hu.resolve hr).part hm
          rw [alternatives_eq_gatherUnion hd hwf hr (Nat.le_max_left _ (u.size + d'.size + 1)),
            alternatives_eq_gatherUnion hd' hwf hresolve.symm
              (Nat.le_max_right (u.size + d.size + 1) _),
            h.gatherUnion _ hmembers]
      | _ => rw [Declarations.alternatives, Declarations.alternatives, hr, ← hresolve]

theorem objectView (h : d.AgreeFrom d' s t) (hu : Reachable d s t u) :
    d.objectView u = d'.objectView u := by
  rw [Declarations.objectView, Declarations.objectView, h.resolve hu]

theorem objectViews (h : d.AgreeFrom d' s t) {types : List Ty}
    (htypes : ∀ u ∈ types, Reachable d s t u) : d.objectViews types = d'.objectViews types := by
  apply each_congr d.objectView d'.objectView d.objectViews d'.objectViews rfl rfl
    objectViews_cons objectViews_cons
  exact fun u hu => h.objectView (htypes u hu)

theorem literals? (h : d.AgreeFrom d' s t) (hu : Reachable d s t u) :
    d.literals? u = d'.literals? u := by
  rw [Declarations.literals?, Declarations.literals?, ← h.resolve hu]
  split
  · rfl
  · rfl
  · rename_i members hr
    have hall : d.resolveEach members = d'.resolveEach members :=
      each_congr d.resolve d'.resolve d.resolveEach d'.resolveEach rfl rfl
        resolveEach_cons resolveEach_cons fun m hm => h.resolve ((hu.resolve hr).part hm)
    rw [hall]
  · rfl

theorem tagLiterals? (h : d.AgreeFrom d' s t) {view : Option ObjectTy}
    (hview : d.Seen s t view) (name : String) :
    d.tagLiterals? view name = d'.tagLiterals? view name := by
  rw [Declarations.tagLiterals?, Declarations.tagLiterals?]
  split
  · rename_i slot hslot
    split
    · rfl
    · obtain ⟨o, rfl, hget⟩ := Option.bind_eq_some_iff.mp hslot
      exact h.literals? ((hview o rfl).part (Ty.mem_parts_of_mem_fields (Assoc.mem_of_lookup hget)))
  · rfl

section Tags

variable {views : List (Option ObjectTy)}

theorem tagsEach (h : d.AgreeFrom d' s t) (hviews : ∀ view ∈ views, d.Seen s t view)
    (name : String) : d.tagsEach name views = d'.tagsEach name views :=
  each_congr (d.tagLiterals? · name) (d'.tagLiterals? · name) (d.tagsEach name) (d'.tagsEach name)
    rfl rfl (tagsEach_cons name) (tagsEach_cons name)
    fun view hview => h.tagLiterals? (hviews view hview) name

theorem allTagged (h : d.AgreeFrom d' s t) (hviews : ∀ view ∈ views, d.Seen s t view)
    (name : String) : d.allTagged name views = d'.allTagged name views := by
  induction views with
  | nil => rfl
  | cons view rest ih =>
      rw [List.forall_mem_cons] at hviews
      rw [Declarations.allTagged, Declarations.allTagged, h.tagLiterals? hviews.1, ih hviews.2]

theorem tagsAmong (h : d.AgreeFrom d' s t) (hviews : ∀ view ∈ views, d.Seen s t view)
    (names : List String) : d.tagsAmong views names = d'.tagsAmong views names := by
  induction names with
  | nil => rfl
  | cons name rest ih =>
      rw [Declarations.tagsAmong, Declarations.tagsAmong, h.allTagged hviews, ih]

end Tags

theorem tagNames (h : d.AgreeFrom d' s t) (hd : d.WellFormed) (hd' : d'.WellFormed)
    (hu : Reachable d s t u) (hwf : u.WellFormed) : d.tagNames u = d'.tagNames u := by
  rw [Declarations.tagNames, Declarations.tagNames, ← h.alternatives hd hd' hu hwf]
  split
  · rfl
  · rename_i members hmembers
    have hreach : ∀ m ∈ members, Reachable d s t m :=
      fun m hm => reachable_of_mem_alternatives hu hmembers hm
    rw [← h.objectViews hreach]
    split
    · rfl
    · rfl
    · rfl
    · rename_i first rest hviews
      exact h.tagsAmong (seen_of_objectViews hreach hviews) _

theorem outcome (h : d.AgreeFrom d' s t) (hd : d.WellFormed) (hd' : d'.WellFormed)
    (hu : Reachable d s t u) (hwf : u.WellFormed) (policy : Policy) (test : Test) :
    Narrowing.outcome ⟨policy, d⟩ u test = Narrowing.outcome ⟨policy, d'⟩ u test := by
  simp only [Narrowing.outcome, ← h.alternatives hd hd' hu hwf]
  split
  · rfl
  · rename_i members hmembers
    have hreach : ∀ m ∈ members, Reachable d s t m :=
      fun m hm => reachable_of_mem_alternatives hu hmembers hm
    rw [← h.objectViews hreach]
    split
    · rfl
    · rename_i views hviews
      cases test with
      | tag field wanted => simp only [h.tagsEach (seen_of_objectViews hreach hviews)]
      | present field => simp only [Narrowing.refusalTags, h.tagNames hd hd' hu hwf]

theorem certain (h : d.AgreeFrom d' s t) (test : Test) {view : Option ObjectTy}
    (hview : d.Seen s t view) : Narrowing.certain d test view = Narrowing.certain d' test view := by
  cases test with
  | tag field wanted => rw [Narrowing.certain, Narrowing.certain, h.tagLiterals? hview]
  | present field => rfl

theorem uncertain (h : d.AgreeFrom d' s t) (test : Test) {members : List Ty}
    (hmembers : ∀ m ∈ members, Reachable d s t m) :
    Narrowing.uncertain d test members = Narrowing.uncertain d' test members := by
  induction members with
  | nil => rfl
  | cons m rest ih =>
      rw [List.forall_mem_cons] at hmembers
      rw [Narrowing.uncertain, Narrowing.uncertain, ih hmembers.2, ← h.objectView hmembers.1]
      split
      · rfl
      · rename_i view hview
        rw [h.certain test (seen_of_objectView hmembers.1 hview)]

theorem remainder (h : d.AgreeFrom d' s t) (hd : d.WellFormed) (hd' : d'.WellFormed)
    (hu : Reachable d s t u) (hwf : u.WellFormed) (test : Test) :
    d.remainder u test = d'.remainder u test := by
  rw [Declarations.remainder, Declarations.remainder, ← h.alternatives hd hd' hu hwf]
  split
  · rfl
  · rename_i members hmembers
    rw [h.uncertain test fun m hm => reachable_of_mem_alternatives hu hmembers hm]

end Narrowing

end AgreeFrom

theorem agreeFrom_insert {s t : Ty} {name : String} (h : ¬ Reachable d s t (.named name))
    (type : Ty) : d.AgreeFrom (d.insert name type) s t := by
  intro name' hname'
  have hne : name' ≠ name := by
    rintro rfl
    exact h hname'
  exact (Assoc.lookup_insert_of_ne hne type d.bindings).symm

theorem not_reachable_of_pool {s t : Ty} {name : String}
    (h : ∀ u ∈ pool d s t, name ∉ u.exposed) : ¬ Reachable d s t (.named name) := by
  intro hname
  exact h _ hname.mem_pool (by simp [Ty.exposed])

/-- Declarations that agree on the names that can be come to give the same outcome: the same
verdict, selection or remainder, or the same fault. -/
theorem outcomes_local (hd : d.WellFormed) (hd' : d'.WellFormed) (policy : Policy) :
    (∀ s t, s.WellFormed → t.WellFormed → d.AgreeFrom d' s t →
      Setting.check ⟨policy, d⟩ s t = Setting.check ⟨policy, d'⟩ s t) ∧
    ∀ u test, u.WellFormed → d.AgreeFrom d' u u →
      Setting.select ⟨policy, d⟩ u test = Setting.select ⟨policy, d'⟩ u test ∧
      d.remainder u test = d'.remainder u test := by
  refine ⟨fun s t hs ht h => h.check hd hd' hs ht policy, fun u test hu h => ⟨?_, ?_⟩⟩
  · rw [Setting.select, Setting.select, h.outcome hd hd' .source hu]
  · exact h.remainder hd hd' .source hu test

theorem outcomes_local_shapes :
    let d := Narrowing.shapes.insert "Note" (.primitive "string")
    let d' := d.insert "Note" (.named "Note")
    d.resolve (.named "Note") = .ok (.primitive "string") ∧
    d'.resolve (.named "Note") = .error (.aliasCycle ["Note", "Note"]) ∧
    Setting.check ⟨{}, d⟩ (.named "Shape") (.named "Round") =
      Setting.check ⟨{}, d'⟩ (.named "Shape") (.named "Round") ∧
    Setting.select ⟨{}, d⟩ (.named "Shape") (.present "kind") =
      Setting.select ⟨{}, d'⟩ (.named "Shape") (.present "kind") := by
  intro d d'
  obtain ⟨hcheck, hnarrow⟩ := @outcomes_local d d' (by decide) (by decide) {}
  refine ⟨rfl, rfl, ?_, ?_⟩
  · exact hcheck _ _ (by decide) (by decide)
      (agreeFrom_insert (not_reachable_of_pool (by decide)) _)
  · exact (hnarrow _ _ (by decide)
      (agreeFrom_insert (not_reachable_of_pool (by decide)) _)).1

end Declarations

end StructuralTypes
