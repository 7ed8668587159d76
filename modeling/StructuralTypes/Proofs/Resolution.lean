import StructuralTypes.Proofs.WellFormed

namespace StructuralTypes.Declarations

variable {d : Declarations}

theorem mem_bindings_of_target? {name : String} {t : Ty} (h : d.target? name = some t) :
    (name, t) ∈ d.bindings := by
  unfold target? at h
  split at h
  · cases h
  · exact Assoc.mem_of_lookup h

theorem follow_step (d : Declarations) (budget : Nat) (chain : List String) (name : String) :
    name ∈ chain ∧ d.follow budget chain name = .error (.aliasCycle (chain ++ [name])) ∨
    name ∉ chain ∧
      (d.target? name = none ∧ d.follow budget chain name = .error (.unbound name) ∨
      (∃ x, d.target? name = some x ∧ x.isNamed = false ∧ d.follow budget chain name = .ok x) ∨
      ∃ next, d.target? name = some (.named next) ∧
        (budget = 0 ∧ d.follow budget chain name = .error (.aliasCycle (chain ++ [name, next])) ∨
        ∃ rest, budget = rest + 1 ∧
          d.follow budget chain name = d.follow rest (chain ++ [name]) next)) := by
  by_cases hmem : name ∈ chain
  · left
    exact ⟨hmem, by rw [follow, if_pos (by simpa using hmem)]⟩
  · right
    refine ⟨hmem, ?_⟩
    rw [follow, if_neg (by simpa using hmem)]
    cases htarget : d.target? name with
    | none => exact Or.inl ⟨rfl, rfl⟩
    | some x =>
        cases x with
        | named next =>
            refine Or.inr (Or.inr ⟨next, rfl, ?_⟩)
            cases budget with
            | zero => exact Or.inl ⟨rfl, rfl⟩
            | succ rest => exact Or.inr ⟨rest, rfl, rfl⟩
        | _ => exact Or.inr (Or.inl ⟨_, rfl, rfl, rfl⟩)

theorem follow_cases {budget : Nat} {chain : List String} {name : String}
    {result : Except Fault Ty} (h : d.follow budget chain name = result) :
    (∃ names, result = .error (.aliasCycle names)) ∨
    result = .error (.unbound name) ∨
    (∃ t, t.isNamed = false ∧ d.target? name = some t ∧ result = .ok t) ∨
    ∃ rest next, rest < budget ∧ d.target? name = some (.named next) ∧
      d.follow rest (chain ++ [name]) next = result := by
  subst h
  rcases d.follow_step budget chain name with
    ⟨-, heq⟩ | ⟨-, ⟨-, heq⟩ | ⟨t, ht, hnot, heq⟩ | ⟨next, hnext, ⟨-, heq⟩ | ⟨rest, rfl, heq⟩⟩⟩
  · exact Or.inl ⟨_, heq⟩
  · exact Or.inr (Or.inl heq)
  · exact Or.inr (Or.inr (Or.inl ⟨t, hnot, ht, heq⟩))
  · exact Or.inl ⟨_, heq⟩
  · exact Or.inr (Or.inr (Or.inr ⟨rest, next, Nat.lt_succ_self rest, hnext, heq.symm⟩))

theorem follow_eq_ok {budget : Nat} {chain : List String} {name : String} {t : Ty}
    (h : d.follow budget chain name = .ok t) :
    t.isNamed = false ∧ ∃ last, d.target? last = some t := by
  induction budget using Nat.strong_induction_on generalizing chain name with
  | _ budget ih =>
      rcases follow_cases h with
        ⟨names, hresult⟩ | hresult | ⟨t', hnot, htarget, hresult⟩ | ⟨rest, next, hlt, -, hrest⟩
      · cases hresult
      · cases hresult
      · cases hresult
        exact ⟨hnot, name, htarget⟩
      · exact ih rest hlt hrest

theorem follow_ne_searchTooDeep (budget : Nat) (chain : List String) (name : String) :
    d.follow budget chain name ≠ .error .searchTooDeep := by
  intro h
  induction budget using Nat.strong_induction_on generalizing chain name with
  | _ budget ih =>
      rcases follow_cases h with
        ⟨names, hresult⟩ | hresult | ⟨t', -, -, hresult⟩ | ⟨rest, next, hlt, -, hrest⟩
      · cases hresult
      · cases hresult
      · cases hresult
      · exact ih rest hlt _ _ hrest

theorem resolve_of_not_named {t : Ty} (h : t.isNamed = false) : d.resolve t = .ok t := by
  cases t with
  | named name => cases h
  | _ => rfl

theorem isNamed_of_resolve {t t' : Ty} (h : d.resolve t = .ok t') : t'.isNamed = false := by
  cases t with
  | named name => exact (follow_eq_ok h).1
  | _ =>
      cases h
      rfl

theorem resolve_eq_ok {t t' : Ty} (h : d.resolve t = .ok t') :
    t' = t ∨ ∃ name, (name, t') ∈ d.bindings := by
  cases t with
  | named name =>
      obtain ⟨-, last, hlast⟩ := follow_eq_ok h
      exact Or.inr ⟨last, mem_bindings_of_target? hlast⟩
  | _ =>
      cases h
      exact Or.inl rfl

theorem WellFormed.resolve (hd : d.WellFormed) {t t' : Ty} (ht : t.WellFormed)
    (h : d.resolve t = .ok t') : t'.WellFormed := by
  rcases resolve_eq_ok h with rfl | ⟨name, hname⟩
  · exact ht
  · exact hd _ hname

end StructuralTypes.Declarations
