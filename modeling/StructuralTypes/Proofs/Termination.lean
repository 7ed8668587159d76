import StructuralTypes.Proofs.Exactness
import StructuralTypes.Proofs.Reachable

/-!
The search ends. Every level down either assumes a pair that did not hold before, of which there are
finitely many, or goes to smaller types with at least the assumptions it had. So a search that is
allowed to go deep enough stops with a fault only where the types give cause for one, and more depth
changes nothing.
-/

namespace StructuralTypes.Assignability

section Depth

/-- The first judge says no more than the second, except where it gives up. -/
def Refines (judge judge' : Judge) : Prop :=
  ∀ s t A, judge s t A = .error .searchTooDeep ∨ judge' s t A = judge s t A

variable {judge judge' : Judge}

theorem judgeAll_refines (h : Refines judge judge') (obligations : List Obligation)
    (A : Assumptions) :
    judgeAll judge obligations A = .error .searchTooDeep ∨
      judgeAll judge' obligations A = judgeAll judge obligations A := by
  induction obligations generalizing A with
  | nil => exact Or.inr rfl
  | cons o rest ih =>
      cases o with
      | fault fault => exact Or.inr rfl
      | unmet path reason s t => exact Or.inr rfl
      | fits path s t =>
          rw [judgeAll, judgeAll]
          rcases h s t A with hdeep | hsame
          · rw [hdeep]
            exact Or.inl rfl
          · rw [hsame]
            split
            · exact Or.inr rfl
            · exact ih _
            · exact Or.inr rfl

theorem judgeSome_refines (h : Refines judge judge') (s t : Ty) (start : Assumptions)
    (members : List Ty) (causes : List Verdict) (A : Assumptions) :
    judgeSome judge s t start members causes A = .error .searchTooDeep ∨
      judgeSome judge' s t start members causes A =
        judgeSome judge s t start members causes A := by
  induction members generalizing causes A with
  | nil => exact Or.inr rfl
  | cons m rest ih =>
      rw [judgeSome, judgeSome]
      rcases h s m A with hdeep | hsame
      · rw [hdeep]
        exact Or.inl rfl
      · rw [hsame]
        split
        · exact Or.inr rfl
        · exact Or.inr rfl
        · exact ih _ _

theorem judgeRequirement_refines (h : Refines judge judge') (s t : Ty) (A : Assumptions)
    (requirement : Requirement) :
    judgeRequirement judge s t A requirement = .error .searchTooDeep ∨
      judgeRequirement judge' s t A requirement = judgeRequirement judge s t A requirement := by
  cases requirement with
  | all obligations => exact judgeAll_refines h obligations A
  | someMember members => exact judgeSome_refines h s t A members [] A

theorem judgeNamed_refines (h : Refines judge judge') (d : Declarations) (s t : Ty)
    (A : Assumptions) :
    judgeNamed d judge s t A = .error .searchTooDeep ∨
      judgeNamed d judge' s t A = judgeNamed d judge s t A := by
  unfold judgeNamed
  split
  · exact Or.inr rfl
  · split
    · exact Or.inr rfl
    · exact Or.inr rfl
    · rename_i s' t' _ _
      rcases h s' t' ((s, t) :: A) with hdeep | hsame
      · rw [hdeep]
        exact Or.inl rfl
      · rw [hsame]
        exact Or.inr rfl

theorem judgeStep_refines (h : Refines judge judge') (rules : Rules) (d : Declarations) :
    Refines (judgeStep rules d judge) (judgeStep rules d judge') := by
  intro s t A
  unfold judgeStep
  split
  · exact Or.inr rfl
  · exact Or.inr rfl
  · split
    · exact judgeNamed_refines h d s t A
    · exact judgeRequirement_refines h _ _ A _

theorem search_refines_succ (rules : Rules) (d : Declarations) (depth : Nat) :
    Refines (search rules d depth) (search rules d (depth + 1)) := by
  induction depth with
  | zero =>
      intro s t A
      exact Or.inl rfl
  | succ depth ih =>
      rw [search, search]
      exact judgeStep_refines ih rules d

/-- A search that did not run out of depth says the same with more depth. -/
theorem search_eq_of_le {rules : Rules} {d : Declarations} {depth depth' : Nat} {s t : Ty}
    {A : Assumptions} (hle : depth ≤ depth')
    (h : search rules d depth s t A ≠ .error .searchTooDeep) :
    search rules d depth' s t A = search rules d depth s t A := by
  induction depth', hle using Nat.le_induction with
  | base => rfl
  | succ depth' _ ih =>
      rcases search_refines_succ rules d depth' s t A with hdeep | hsame
      · rw [ih] at hdeep
        exact absurd hdeep h
      · rw [hsame, ih]

theorem search_ok_unique {rules : Rules} {d : Declarations} {depth depth' : Nat} {s t : Ty}
    {A : Assumptions} {result result' : Verdict × Assumptions}
    (h : search rules d depth s t A = .ok result)
    (h' : search rules d depth' s t A = .ok result') : result = result' := by
  rcases Nat.le_total depth depth' with hle | hle
  · rw [search_eq_of_le hle (by simp [h]), h] at h'
    exact Except.ok.inj h'
  · rw [search_eq_of_le hle (by simp [h']), h'] at h
    exact (Except.ok.inj h).symm

end Depth

section Measure

variable {d : Declarations} {source target : Ty}

/-- The pairs of types at hand that are not assumed. -/
def unassumed (types : List Ty) (A : Assumptions) : Nat :=
  ((types ×ˢ types).filter fun p => !A.holds p.1 p.2).length

theorem unassumed_nil (types : List Ty) : unassumed types [] = types.length * types.length := by
  simp [unassumed, Assumptions.holds, List.length_product]

theorem unassumed_le {A B : Assumptions} (types : List Ty) (h : A.Grows B) :
    unassumed types B ≤ unassumed types A := by
  unfold unassumed
  apply List.Sublist.length_le
  apply List.monotone_filter_right
  intro p hp
  rw [Bool.not_eq_true', ← Bool.not_eq_true] at hp ⊢
  exact fun hA => hp (h.holds hA)

theorem unassumed_cons_lt {types : List Ty} {A : Assumptions} {s t : Ty} (hs : s ∈ types)
    (ht : t ∈ types) (hwf : s.WellFormed) (hwf' : t.WellFormed) (h : A.holds s t = false) :
    unassumed types ((s, t) :: A) < unassumed types A := by
  have hholds : Assumptions.holds ((s, t) :: A) s t = true :=
    Assumptions.holds_iff.mpr ⟨(s, t), List.mem_cons_self, Ty.beq_refl hwf, Ty.beq_refl hwf'⟩
  have hfilter : ((types ×ˢ types).filter fun p => !Assumptions.holds ((s, t) :: A) p.1 p.2) =
      ((types ×ˢ types).filter fun p => !A.holds p.1 p.2).filter
        fun p => !Assumptions.holds ((s, t) :: A) p.1 p.2 := by
    rw [List.filter_filter]
    apply List.filter_congr
    intro p _
    cases hp : A.holds p.1 p.2 with
    | false => simp
    | true => simp [(Assumptions.grows_cons hwf hwf' h).holds hp]
  unfold unassumed
  rw [hfilter, List.length_filter_lt_length_iff_exists]
  refine ⟨(s, t), List.mem_filter.mpr ⟨List.mem_product.mpr ⟨hs, ht⟩, ?_⟩, ?_⟩
  · simp [h]
  · simp [hholds]

/-- How far a search can still go down. -/
def potential (d : Declarations) (source target s t : Ty) (A : Assumptions) : Nat :=
  unassumed (pool d source target) A * (2 * totalSize d source target + 1) + (s.size + t.size)

theorem potential_lt_of_asks {policy : Policy} {s t a b : Ty} {A C : Assumptions}
    (hs : Reachable d source target s) (ht : Reachable d source target t) (hAC : A.Grows C)
    (h : (rule policy s.expanded t.expanded).Asks s.expanded a b) :
    potential d source target a b C < potential d source target s t A := by
  have hsize := (reachable_of_asks hs ht h).2.2
  have hpairs := Nat.mul_le_mul_right (2 * totalSize d source target + 1)
    (unassumed_le (pool d source target) hAC)
  unfold potential
  omega

theorem potential_lt_of_named {s t s' t' : Ty} {A : Assumptions} (hs : Reachable d source target s)
    (ht : Reachable d source target t) (hs' : Reachable d source target s')
    (ht' : Reachable d source target t') (hwf : s.WellFormed) (hwf' : t.WellFormed)
    (h : A.holds s t = false) :
    potential d source target s' t' ((s, t) :: A) < potential d source target s t A := by
  have hlt := unassumed_cons_lt hs.mem_pool ht.mem_pool hwf hwf' h
  have hpairs := Nat.mul_le_mul_right (2 * totalSize d source target + 1) (Nat.succ_le_of_lt hlt)
  have hsize := hs'.size_le
  have hsize' := ht'.size_le
  rw [Nat.succ_mul] at hpairs
  unfold potential
  omega

theorem potential_lt_depthBound (d : Declarations) (source target : Ty) :
    potential d source target source target [] < depthBound d source target := by
  have hsize : source.size + target.size ≤ 2 * totalSize d source target := by
    unfold totalSize
    omega
  have hbound : depthBound d source target =
      2 * totalSize d source target * (2 * totalSize d source target) *
          (2 * totalSize d source target + 1) + (2 * totalSize d source target + 1) := by
    simp only [depthBound, totalSize]
    ring
  rw [potential, unassumed_nil, length_pool, hbound]
  omega

end Measure

section Faults

variable {d : Declarations} {source target : Ty}

/-- What in a type gives cause for a fault. -/
inductive Obstructs (d : Declarations) : Ty → Fault → Prop
  | foreign (v : Scalar) : Obstructs d (.foreign v) (.notType v.kindName)
  | name {u : Ty} {fault : Fault} (h : d.resolve u = .error fault) : Obstructs d u fault
  | key {o : ObjectTy} {r : IndexRule Ty} {l : Literal} {fault : Fault} (hr : o.index = some r)
      (hl : Ty.Leaf (.literal l) r.key) (h : l.keyFault? = some fault) : Obstructs d o.toTy fault

theorem eq_foreign_of_foreign? {u : Ty} {v : Scalar} (h : u.foreign? = some v) :
    u = .foreign v := by
  cases u with
  | foreign w =>
      cases h
      rfl
  | _ => cases h

theorem isKeyDomain_of_index {o : ObjectTy} {r : IndexRule Ty} (ho : o.toTy.WellFormed)
    (hr : o.index = some r) : r.key.isKeyDomain = true := by
  have hmade := ho.wellMade.2
  rw [hr] at hmade
  exact hmade

theorem Arises.obstructs {policy : Policy} {a b : Ty} {fault : Fault}
    (h : Arises policy a b (.fault fault)) (hb : b.WellFormed) (hforeign : b.foreign? = none)
    (hnamed : b.isNamed = false) (hmapped : ∀ entries, b ≠ .mapped entries) :
    Obstructs d a fault ∨ Obstructs d b fault := by
  cases h with
  | sourceKeyFault hr hfault =>
      obtain ⟨l, hl, hkey⟩ := Ty.inDomain_eq_error hfault
      exact Or.inl (.key hr hl hkey)
  | targetKeyFault hr' hfault =>
      obtain ⟨l, hl, hkey⟩ := Ty.inDomain_eq_error hfault
      exact Or.inr (.key hr' hl hkey)
  | domainFault hr' hfault =>
      obtain ⟨l, hl, hkey⟩ := Ty.renderDomain_eq_error (isKeyDomain_of_index hb hr') hfault
      exact Or.inr (.key hr' hl hkey)
  | coverFault hr hr' hfault =>
      obtain ⟨l, hl | hl, hkey⟩ := Ty.covers_eq_error hfault
      · exact Or.inl (.key hr hl hkey)
      · exact Or.inr (.key hr' hl hkey)
  | notType hwhat =>
      rcases hwhat with hwhat | hwhat | ⟨entries, hwhat⟩
      · rw [hnamed] at hwhat
        cases hwhat
      · exact absurd hforeign hwhat
      · exact absurd hwhat (hmapped entries)

/-- A search with depth to spare stops with a fault only for a cause in a type it can come to. -/
theorem obstructs_of_search_error {policy : Policy} (hd : d.WellFormed) {depth : Nat} {s t : Ty}
    {A : Assumptions} {fault : Fault} (hs : s.WellFormed) (ht : t.WellFormed) (hA : A.WellFormed)
    (hrs : Reachable d source target s) (hrt : Reachable d source target t)
    (hdepth : potential d source target s t A < depth)
    (h : search (rule policy) d depth s t A = .error fault) :
    ∃ u, Reachable d source target u ∧ Obstructs d u fault := by
  induction depth generalizing s t A with
  | zero => omega
  | succ depth ih =>
      rw [search] at h
      rcases judgeStep_cases (rule policy) d (search (rule policy) d depth) s t A with
        ⟨x, v, hx, hforeign, hstep⟩ | ⟨hfs, hft, ⟨hnamed, hstep⟩ | ⟨hsn, htn, hstep⟩⟩
      · rw [hstep] at h
        cases h
        have hreach : Reachable d source target x := by
          rcases hx with rfl | rfl
          · exact hrs
          · exact hrt
        rw [eq_foreign_of_foreign? hforeign] at hreach
        exact ⟨_, hreach, .foreign v⟩
      · rw [hstep] at h
        rcases judgeNamed_error h with hfault | hfault | ⟨hholds, s', t', hs', ht', hrun⟩
        · exact ⟨s, hrs, .name hfault⟩
        · exact ⟨t, hrt, .name hfault⟩
        · -- one pair more is assumed, which outweighs that the types may have grown
          have hlt := potential_lt_of_named hrs hrt (hrs.resolve hs') (hrt.resolve ht') hs ht hholds
          exact ih (hd.resolve hs hs') (hd.resolve ht ht')
            ((Assumptions.grows_cons hs ht hholds).wellFormed hA) (hrs.resolve hs')
            (hrt.resolve ht') (by omega) hrun
      · rw [hstep] at h
        rcases judgeRequirement_error
            (fun a b hasks => search_keeps_of_asks hd depth hs ht hasks) hA h with
          ⟨obligations, hrule, hmem⟩ | ⟨a, b, C, hasks, hC, hAC, hrun⟩
        · rcases (rule_arises hrule _ hmem).obstructs (d := d) ht.expanded
              (by rw [Ty.foreign?_expanded, hft]) (by rw [Ty.isNamed_expanded, htn])
              t.expanded_ne_mapped with hobstructs | hobstructs
          · exact ⟨_, hrs.expanded, hobstructs⟩
          · exact ⟨_, hrt.expanded, hobstructs⟩
        · have hlt := potential_lt_of_asks hrs hrt hAC hasks
          obtain ⟨ha, hb⟩ := wellFormed_of_asks hs.expanded ht.expanded hasks
          obtain ⟨hra, hrb, -⟩ := reachable_of_asks hrs hrt hasks
          exact ih ha hb hC hra hrb (by omega) hrun

end Faults

section Progress

variable {d : Declarations}

theorem Obstructs.ne_searchTooDeep {u : Ty} {fault : Fault} (h : Obstructs d u fault) :
    fault ≠ .searchTooDeep := by
  cases h with
  | foreign v => simp
  | name h =>
      rintro rfl
      cases u with
      | named name => exact Declarations.follow_ne_searchTooDeep _ _ _ h
      | _ => cases h
  | key hr hl h =>
      rintro rfl
      unfold Literal.keyFault? at h
      split at h
      · split at h <;> cases h
      · cases h

def integerLiteral? : Ty → Option Int
  | .literal (.number (.int n)) => some n
  | _ => none

/-- The integers in the index key of an object. -/
def keyIntegers : Ty → List Int
  | .object _ (some r) => r.key.inside.filterMap integerLiteral?
  | _ => []

theorem keyFault?_eq_none {o : ObjectTy} {r : IndexRule Ty} {l : Literal}
    (h : ∀ n ∈ keyIntegers o.toTy, n.natAbs < Binary64.integerLimit) (hr : o.index = some r)
    (hl : Ty.Leaf (.literal l) r.key) : l.keyFault? = none := by
  unfold Literal.keyFault?
  split
  · rename_i n
    have hmem : n ∈ keyIntegers o.toTy := by
      rw [ObjectTy.toTy, hr]
      exact List.mem_filterMap.mpr ⟨_, hl.mem_inside, rfl⟩
    exact if_pos (h n hmem)
  · rfl

/-- A type that a comparison can handle: it is no foreign value, it stands for a type if it is a
name, and the integers in its index key have the range of binary numbers. -/
def Judgeable (d : Declarations) (u : Ty) : Prop :=
  u.foreign? = none ∧ (d.resolve u).isOk = true ∧
    ∀ n ∈ keyIntegers u, n.natAbs < Binary64.integerLimit

instance (d : Declarations) (u : Ty) : Decidable (Judgeable d u) :=
  inferInstanceAs (Decidable (_ ∧ _ ∧ _))

theorem Judgeable.not_obstructs {u : Ty} (h : Judgeable d u) (fault : Fault) :
    ¬ Obstructs d u fault := by
  intro hobstructs
  cases hobstructs with
  | foreign v => cases h.1
  | name hfault =>
      have hok := h.2.1
      rw [hfault] at hok
      cases hok
  | key hr hl hfault =>
      rw [keyFault?_eq_none h.2.2 hr hl] at hfault
      cases hfault

end Progress

section Check

variable {setting : Setting} {s t : Ty}

theorem search_ne_searchTooDeep (hd : setting.declarations.WellFormed) (hs : s.WellFormed)
    (ht : t.WellFormed) {depth : Nat} (hdepth : depthBound setting.declarations s t ≤ depth) :
    search (rule setting.policy) setting.declarations depth s t [] ≠ .error .searchTooDeep := by
  intro h
  have hlt := potential_lt_depthBound setting.declarations s t
  obtain ⟨u, -, hobstructs⟩ := obstructs_of_search_error hd hs ht (by simp [Assumptions.WellFormed])
    .source .target (by omega) h
  exact hobstructs.ne_searchTooDeep rfl

theorem check_eq_search (hd : setting.declarations.WellFormed) (hs : s.WellFormed)
    (ht : t.WellFormed) {depth : Nat} (hdepth : depthBound setting.declarations s t ≤ depth) :
    setting.check s t =
      (search (rule setting.policy) setting.declarations depth s t []).map Prod.fst := by
  rw [search_eq_of_le hdepth (search_ne_searchTooDeep hd hs ht (Nat.le_refl _))]
  rfl

theorem exists_verdict (hd : setting.declarations.WellFormed) (hs : s.WellFormed)
    (ht : t.WellFormed)
    (h : ∀ u, Reachable setting.declarations s t u → Judgeable setting.declarations u) :
    ∃ v, setting.check s t = .ok v := by
  cases hrun : search (rule setting.policy) setting.declarations
      (depthBound setting.declarations s t) s t [] with
  | error fault =>
      obtain ⟨u, hu, hobstructs⟩ := obstructs_of_search_error hd hs ht
        (by simp [Assumptions.WellFormed]) .source .target
        (potential_lt_depthBound setting.declarations s t) hrun
      exact absurd hobstructs ((h u hu).not_obstructs fault)
  | ok result =>
      refine ⟨result.1, ?_⟩
      rw [check_eq_search hd hs ht (Nat.le_refl _), hrun]
      rfl

/-- A comparison ends: a search that may go down far enough never runs out of depth, and however far
it may go it says the same. Where every type it can come to can be handled, it ends with a
verdict. -/
theorem check_terminates (hd : setting.declarations.WellFormed) (hs : s.WellFormed)
    (ht : t.WellFormed) :
    (∀ depth, depthBound setting.declarations s t ≤ depth →
      search (rule setting.policy) setting.declarations depth s t [] ≠ .error .searchTooDeep ∧
      setting.check s t =
        (search (rule setting.policy) setting.declarations depth s t []).map Prod.fst) ∧
    ((∀ u, Reachable setting.declarations s t u → Judgeable setting.declarations u) →
      ∃ v, setting.check s t = .ok v) := by
  refine ⟨fun depth hdepth => ⟨?_, ?_⟩, exists_verdict hd hs ht⟩
  · exact search_ne_searchTooDeep hd hs ht hdepth
  · exact check_eq_search hd hs ht hdepth

/-- Trees whose branches are stored under numbers and names, with a chain of two names and a union
that comes back to itself. -/
def forest : Declarations :=
  .ofList [
    ("Tree", .object [("root", ⟨.named "Branch", true, false⟩)]
      (some ⟨.union [.literal (.number (.int 7)), .literal (.text "left")],
        .named "Branch", false⟩)),
    ("Branch", .named "Twig"),
    ("Twig", .union [.named "Tree", .array (.named "Twig") false])]

theorem check_terminates_forest :
    ∃ v, Setting.check ⟨{}, forest⟩ (.named "Branch") (.named "Tree") = .ok v := by
  have hterminates := check_terminates (s := .named "Branch") (t := .named "Tree")
    (show (Setting.mk {} forest).declarations.WellFormed by decide) (by decide) (by decide)
  have hpool : ∀ u ∈ pool forest (.named "Branch") (.named "Tree"), Judgeable forest u := by
    decide +kernel
  exact hterminates.2 fun u hu => hpool u hu.mem_pool

end Check

end StructuralTypes.Assignability
