import StructuralTypes.Proofs.Locality

namespace StructuralTypes.Declarations

open Relation

variable {d : Declarations} {a b r : String} {c : List String}

/-- A name is declared as another name. -/
def AliasOf (d : Declarations) (a b : String) : Prop :=
  d.target? a = some (.named b)

/-- The names of a chain up to the first that it has been through. -/
structure ComesBack (d : Declarations) (r : String) (c : List String) : Prop where
  head : c.head? = some r
  chain : c.IsChain d.AliasOf
  closes : ∃ before last, c = before ++ [last] ∧ before.Nodup ∧ before.count last = 1

/-- The three ways that the chain from a name can go, each with what there is to say about it. -/
inductive ChainOutcome (d : Declarations) (r : String) : Except Fault Ty → Prop
  | arrives {a : String} {x : Ty} (h : ReflTransGen d.AliasOf r a) (hx : d.target? a = some x)
      (hnot : x.isNamed = false) : ChainOutcome d r (.ok x)
  | stops {u : String} (h : ReflTransGen d.AliasOf r u) (hu : d.target? u = none) :
      ChainOutcome d r (.error (.unbound u))
  | comesBack {c : List String} (h : d.ComesBack r c) :
      ChainOutcome d r (.error (.aliasCycle c))

theorem rightUnique_aliasOf (d : Declarations) : Relator.RightUnique d.AliasOf := by
  intro a b b' h h'
  exact Ty.named.inj (Option.some.inj (h.symm.trans h'))

section Ends

/-- The chain ends at this name. -/
def IsEnd (d : Declarations) (a : String) : Prop :=
  ∀ b, ¬ d.AliasOf a b

theorem isEnd_of_target?_eq_none (h : d.target? a = none) : d.IsEnd a := by
  intro b hb
  cases h.symm.trans hb

theorem isEnd_of_not_named {x : Ty} (hx : d.target? a = some x) (hnot : x.isNamed = false) :
    d.IsEnd a := by
  intro b hb
  cases hx.symm.trans hb
  cases hnot

theorem IsEnd.eq_of_leads (ha : d.IsEnd a) (h : ReflTransGen d.AliasOf a b) : b = a := by
  rcases ReflTransGen.cases_head h with heq | ⟨next, hnext, -⟩
  · exact heq.symm
  · exact absurd hnext (ha next)

theorem IsEnd.unique (ha : d.IsEnd a) (hb : d.IsEnd b) (hra : ReflTransGen d.AliasOf r a)
    (hrb : ReflTransGen d.AliasOf r b) : a = b := by
  rcases ReflTransGen.total_of_right_unique d.rightUnique_aliasOf hra hrb with hab | hba
  · exact (ha.eq_of_leads hab).symm
  · exact hb.eq_of_leads hba

theorem circle_of_leads (ha : TransGen d.AliasOf a a) (h : ReflTransGen d.AliasOf a b) :
    TransGen d.AliasOf b b := by
  induction h with
  | refl => exact ha
  | tail _ hstep ih =>
      obtain ⟨next, hnext, hback⟩ := TransGen.head'_iff.mp ih
      rw [d.rightUnique_aliasOf hnext hstep] at hback
      exact .tail' hback hstep

theorem not_isEnd_of_circle (hra : ReflTransGen d.AliasOf r a) (ha : TransGen d.AliasOf a a)
    (hrb : ReflTransGen d.AliasOf r b) : ¬ d.IsEnd b := by
  intro hb
  have hcircle : TransGen d.AliasOf b b := by
    rcases ReflTransGen.total_of_right_unique d.rightUnique_aliasOf hra hrb with hab | hba
    · exact circle_of_leads ha hab
    · rwa [hb.eq_of_leads hba] at ha
  obtain ⟨next, hnext, -⟩ := TransGen.head'_iff.mp hcircle
  exact hb next hnext

end Ends

section Circles

theorem leads_of_isChain {last : String} (h : (c ++ [last]).IsChain d.AliasOf) (ha : a ∈ c) :
    TransGen d.AliasOf a last := by
  have hpairs : (c ++ [last]).Pairwise (TransGen d.AliasOf) :=
    List.isChain_iff_pairwise.mp (h.imp fun _ _ => TransGen.single)
  exact (List.pairwise_append.mp hpairs).2.2 a ha last (List.mem_singleton_self last)

theorem ComesBack.exists_repeated (h : d.ComesBack r c) :
    ∃ before last, c = before ++ [last] ∧ last ∈ before := by
  obtain ⟨before, last, hc, -, hcount⟩ := h.closes
  exact ⟨before, last, hc, List.count_pos_iff.mp (by omega)⟩

theorem ComesBack.exists_circle (h : d.ComesBack r c) :
    ∃ a, ReflTransGen d.AliasOf r a ∧ TransGen d.AliasOf a a := by
  obtain ⟨before, last, rfl, hlast⟩ := h.exists_repeated
  obtain ⟨first, rest, rfl⟩ := List.exists_cons_of_ne_nil (List.ne_nil_of_mem hlast)
  obtain rfl : first = r := Option.some.inj h.head
  exact ⟨last, (leads_of_isChain h.chain List.mem_cons_self).to_reflTransGen,
    leads_of_isChain h.chain hlast⟩

theorem isChain_total {l l' : List String} (h : (r :: l).IsChain d.AliasOf)
    (h' : (r :: l').IsChain d.AliasOf) : r :: l <+: r :: l' ∨ r :: l' <+: r :: l := by
  induction l generalizing r l' with
  | nil => exact Or.inl (by simp)
  | cons a rest ih =>
      cases l' with
      | nil => exact Or.inr (by simp)
      | cons b rest' =>
          rw [List.isChain_cons_cons] at h h'
          obtain rfl := d.rightUnique_aliasOf h.1 h'.1
          simpa [List.cons_prefix_cons] using ih h.2 h'.2

theorem ComesBack.eq_of_start {c' : List String} (h : d.ComesBack r c) (h' : d.ComesBack r c')
    (hstart : c <+: c') : c = c' := by
  obtain ⟨before, last, rfl, hlast⟩ := h.exists_repeated
  obtain ⟨before', last', rfl, hnodup', -⟩ := h'.closes
  rcases List.prefix_concat_iff.mp hstart with heq | hshort
  · exact heq
  · -- a shorter chain would be free of repetition
    have hnodup : (before ++ [last]).Nodup := hnodup'.sublist hshort.sublist
    exact absurd rfl ((List.nodup_append.mp hnodup).2.2 last hlast last (by simp))

theorem ComesBack.unique {c' : List String} (h : d.ComesBack r c) (h' : d.ComesBack r c') :
    c = c' := by
  have hcons : ∀ {c}, d.ComesBack r c → ∃ l, c = r :: l := by
    intro c h
    exact List.head?_eq_some_iff.mp h.head
  obtain ⟨l, rfl⟩ := hcons h
  obtain ⟨l', rfl⟩ := hcons h'
  rcases isChain_total h.chain h'.chain with hstart | hstart
  · exact h.eq_of_start h' hstart
  · exact (h'.eq_of_start h hstart).symm

end Circles

section Outcome

theorem leads_of_head {name : String} (hhead : (c ++ [name]).head? = some r)
    (hchain : (c ++ [name]).IsChain d.AliasOf) : ReflTransGen d.AliasOf r name := by
  cases c with
  | nil =>
      cases hhead
      exact .refl
  | cons first rest =>
      cases hhead
      exact (leads_of_isChain hchain List.mem_cons_self).to_reflTransGen

theorem comesBack_of_mem {name : String} (hhead : (c ++ [name]).head? = some r)
    (hchain : (c ++ [name]).IsChain d.AliasOf) (hnodup : c.Nodup) (hmem : name ∈ c) :
    d.ComesBack r (c ++ [name]) :=
  ⟨hhead, hchain, c, name, rfl, hnodup, List.count_eq_one_of_mem hnodup hmem⟩

theorem ChainOutcome.unique {result result' : Except Fault Ty} (h : d.ChainOutcome r result)
    (h' : d.ChainOutcome r result') : result = result' := by
  have hback : ∀ {c a}, d.ComesBack r c → ReflTransGen d.AliasOf r a → ¬ d.IsEnd a := by
    intro c a hc ha
    obtain ⟨b, hrb, hb⟩ := hc.exists_circle
    exact not_isEnd_of_circle hrb hb ha
  cases h with
  | arrives h hx hnot =>
      have hend := isEnd_of_not_named hx hnot
      cases h' with
      | arrives h' hx' hnot' =>
          obtain rfl := hend.unique (isEnd_of_not_named hx' hnot') h h'
          rw [Option.some.inj (hx.symm.trans hx')]
      | stops h' hu =>
          obtain rfl := hend.unique (isEnd_of_target?_eq_none hu) h h'
          cases hx.symm.trans hu
      | comesBack hc => exact absurd hend (hback hc h)
  | stops h hu =>
      have hend := isEnd_of_target?_eq_none hu
      cases h' with
      | arrives h' hx' hnot' =>
          obtain rfl := hend.unique (isEnd_of_not_named hx' hnot') h h'
          cases hu.symm.trans hx'
      | stops h' hu' => rw [hend.unique (isEnd_of_target?_eq_none hu') h h']
      | comesBack hc => exact absurd hend (hback hc h)
  | comesBack hc =>
      cases h' with
      | arrives h' hx' hnot' => exact absurd (isEnd_of_not_named hx' hnot') (hback hc h')
      | stops h' hu' => exact absurd (isEnd_of_target?_eq_none hu') (hback hc h')
      | comesBack hc' => rw [hc.unique hc']

/-- Following a chain from a name on, with the names that it has been through, tells which way it
goes. The names are distinct and declared, so the budget lasts. -/
theorem follow_outcome {budget : Nat} {name : String} (hhead : (c ++ [name]).head? = some r)
    (hchain : (c ++ [name]).IsChain d.AliasOf) (hnodup : c.Nodup)
    (hdeclared : c ⊆ Assoc.names d.bindings) (hbudget : d.count ≤ budget + c.length) :
    d.ChainOutcome r (d.follow budget c name) := by
  induction budget using Nat.strong_induction_on generalizing c name with
  | _ budget ih =>
      have hleads := leads_of_head hhead hchain
      rcases d.follow_step budget c name with
        ⟨hold, heq⟩ | ⟨hnew, ⟨hnone, heq⟩ | ⟨x, hx, hnot, heq⟩ | ⟨next, hnext, hgo⟩⟩
      · rw [heq]
        exact .comesBack (comesBack_of_mem hhead hchain hnodup hold)
      · rw [heq]
        exact .stops hleads hnone
      · rw [heq]
        exact .arrives hleads hx hnot
      · obtain ⟨hnodup', hdeclared'⟩ := chain_append hnodup hdeclared hnew hnext
        have hle := length_le_count hnodup' hdeclared'
        rw [List.length_append, List.length_singleton] at hle
        rcases hgo with ⟨rfl, -⟩ | ⟨rest, rfl, heq⟩
        · omega
        · rw [heq]
          refine ih rest (Nat.lt_succ_self rest) ?_ ?_ hnodup' hdeclared' ?_
          · rw [List.head?_append, hhead]
            rfl
          · rw [List.append_assoc, List.singleton_append, List.isChain_append_cons_cons]
            exact ⟨hchain, hnext, List.isChain_singleton next⟩
          · rw [List.length_append, List.length_singleton]
            omega

theorem resolve_outcome (d : Declarations) (r : String) :
    d.ChainOutcome r (d.resolve (.named r)) :=
  follow_outcome rfl (List.isChain_singleton r) .nil (List.nil_subset _) (Nat.le_add_right _ _)

theorem resolve_eq_iff {result : Except Fault Ty} :
    d.resolve (.named r) = result ↔ d.ChainOutcome r result := by
  constructor
  · rintro rfl
    exact d.resolve_outcome r
  · exact (d.resolve_outcome r).unique

/-- A chain comes back exactly when it leads to a name that leads round in a circle. -/
theorem exists_comesBack_iff :
    (∃ c, d.ComesBack r c) ↔ ∃ a, ReflTransGen d.AliasOf r a ∧ TransGen d.AliasOf a a := by
  constructor
  · rintro ⟨c, h⟩
    exact h.exists_circle
  · rintro ⟨a, hra, ha⟩
    have houtcome := d.resolve_outcome r
    -- on the other two ways the chain would have an end
    generalize d.resolve (.named r) = result at houtcome
    cases houtcome with
    | arrives h hx hnot => exact absurd (isEnd_of_not_named hx hnot) (not_isEnd_of_circle hra ha h)
    | stops h hu => exact absurd (isEnd_of_target?_eq_none hu) (not_isEnd_of_circle hra ha h)
    | comesBack h => exact ⟨_, h⟩

end Outcome

/-- Resolving a name ends, with every budget that is large enough alike, and tells which way the
chain of names goes: the type that it arrives at, the name at which it stops, or the names up to the
first that it has been through. A chain goes exactly one way, and what a name resolves to stands for
itself. -/
theorem resolve_classifies (d : Declarations) (r : String) :
    (∀ budget, d.count ≤ budget → d.follow budget [] r = d.resolve (.named r)) ∧
    (∀ x, d.resolve (.named r) = .ok x ↔
      ∃ a, ReflTransGen d.AliasOf r a ∧ d.target? a = some x ∧ x.isNamed = false) ∧
    (∀ u, d.resolve (.named r) = .error (.unbound u) ↔
      ReflTransGen d.AliasOf r u ∧ d.target? u = none) ∧
    ((∃ c, d.resolve (.named r) = .error (.aliasCycle c)) ↔
      ∃ a, ReflTransGen d.AliasOf r a ∧ TransGen d.AliasOf a a) ∧
    (∀ c, d.resolve (.named r) = .error (.aliasCycle c) ↔ d.ComesBack r c) ∧
    (∃! result, d.ChainOutcome r result) ∧
    ∀ x, d.resolve (.named r) = .ok x → d.resolve x = .ok x := by
  have hcycle : ∀ c, d.resolve (.named r) = .error (.aliasCycle c) ↔ d.ComesBack r c := by
    intro c
    rw [resolve_eq_iff]
    constructor
    · rintro (_ | _ | h)
      exact h
    · exact .comesBack
  refine ⟨fun budget hbudget => (resolve_eq_follow hbudget).symm, fun x => ?_, fun u => ?_, ?_,
    hcycle, ?_, fun x hx => resolve_of_not_named (isNamed_of_resolve hx)⟩
  · rw [resolve_eq_iff]
    constructor
    · rintro (⟨h, hx, hnot⟩ | _ | _)
      exact ⟨_, h, hx, hnot⟩
    · rintro ⟨a, h, hx, hnot⟩
      exact .arrives h hx hnot
  · rw [resolve_eq_iff]
    constructor
    · rintro (_ | ⟨h, hu⟩ | _)
      exact ⟨h, hu⟩
    · rintro ⟨h, hu⟩
      exact .stops h hu
  · simp only [hcycle]
    exact exists_comesBack_iff
  · exact ⟨_, d.resolve_outcome r, fun result h => h.unique (d.resolve_outcome r)⟩

/-- A chain of names to a type, one to a name that is not declared, and one into a circle. -/
def detours : Declarations :=
  .ofList [("Id", .named "Key"), ("Key", .named "Text"), ("Text", .string), ("Old", .named "Gone"),
    ("Up", .named "Left"), ("Left", .named "Right"), ("Right", .named "Left")]

theorem resolve_classifies_detours :
    (∃ a, ReflTransGen detours.AliasOf "Id" a ∧ detours.target? a = some .string) ∧
      ReflTransGen detours.AliasOf "Old" "Gone" ∧
      detours.ComesBack "Up" ["Up", "Left", "Right", "Left"] ∧
      detours.follow 100 [] "Up" = .error (.aliasCycle ["Up", "Left", "Right", "Left"]) := by
  obtain ⟨-, harrives, -⟩ := resolve_classifies detours "Id"
  obtain ⟨-, -, hstops, -⟩ := resolve_classifies detours "Old"
  obtain ⟨hbudget, -, -, -, hcomesBack, -⟩ := resolve_classifies detours "Up"
  obtain ⟨a, ha, htext, -⟩ := (harrives .string).mp rfl
  exact ⟨⟨a, ha, htext⟩, ((hstops "Gone").mp rfl).1, (hcomesBack _).mp rfl,
    hbudget 100 (by decide)⟩

end StructuralTypes.Declarations
