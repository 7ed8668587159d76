import StructuralTypes.Proofs.Structure

/-!
Members of unions, through names. A type leads to the members of the union that it stands for, these
lead to their own, and the walk ends unless a union comes back to itself with nothing but names and
unions in between. Declarations are guarded when none does.
-/

namespace StructuralTypes

namespace Ty

mutual

/-- The names that stand in a type outside of every field, element and position. -/
def exposed : Ty → List String
  | .named name => [name]
  | .union members => exposedMembers members
  | _ => []
termination_by structural t => t

def exposedMembers : List Ty → List String
  | [] => []
  | m :: rest => exposed m ++ exposedMembers rest
termination_by structural members => members

end

theorem exposed_union (members : List Ty) :
    (Ty.union members).exposed = members.flatMap exposed := by
  rw [exposed]
  induction members with
  | nil => rfl
  | cons m rest ih => rw [exposedMembers, ih, List.flatMap_cons]

end Ty

namespace Declarations

open Relation

/-- A member of the union that a type stands for. -/
def HasMember (d : Declarations) (t m : Ty) : Prop :=
  ∃ members, d.resolve t = .ok (.union members) ∧ m ∈ members

/-- Members of members, from a type on, lead round in a circle. -/
def Endless (d : Declarations) (t : Ty) : Prop :=
  ∃ u, ReflTransGen d.HasMember t u ∧ TransGen d.HasMember u u

variable {d : Declarations} {t m u : Ty}

theorem eq_union_of_resolve {members : List Ty} (h : d.resolve t = .ok (.union members)) :
    t = .union members ∨ ∃ name, t = .named name := by
  cases t with
  | named name => exact Or.inr ⟨name, rfl⟩
  | union ms =>
      cases h
      exact Or.inl rfl
  | _ => cases h

theorem hasMember_union {members : List Ty} (hm : m ∈ members) :
    d.HasMember (.union members) m :=
  ⟨members, rfl, hm⟩

theorem HasMember.resolve {t' : Ty} (h : d.HasMember t m) (ht : d.resolve t = .ok t') :
    d.HasMember t' m := by
  obtain ⟨members, hmembers, hm⟩ := h
  rw [ht] at hmembers
  cases hmembers
  exact hasMember_union hm

theorem leads_of_resolve {members : List Ty} (ht : d.resolve t = .ok (.union members))
    (h : TransGen d.HasMember (.union members) u) : TransGen d.HasMember t u := by
  obtain ⟨m, ⟨ms, hms, hm⟩, hleads⟩ := TransGen.head'_iff.mp h
  cases hms
  exact .head' ⟨members, ht, hm⟩ hleads

theorem HasMember.wellFormed (hd : d.WellFormed) (ht : t.WellFormed) (h : d.HasMember t m) :
    m.WellFormed := by
  obtain ⟨members, hmembers, hm⟩ := h
  exact (hd.resolve ht hmembers).part hm

theorem HasMember.reachable {s s' : Ty} (ht : Assignability.Reachable d s s' t)
    (h : d.HasMember t m) : Assignability.Reachable d s s' m := by
  obtain ⟨members, hmembers, hm⟩ := h
  exact .part (ht.resolve hmembers) hm

theorem wellFormed_of_leads (hd : d.WellFormed) (ht : t.WellFormed)
    (h : ReflTransGen d.HasMember t u) : u.WellFormed := by
  induction h with
  | refl => exact ht
  | tail _ hstep ih => exact hstep.wellFormed hd ih

theorem Endless.exists_member (h : d.Endless t) : ∃ m, d.HasMember t m ∧ d.Endless m := by
  obtain ⟨u, hu, hloop⟩ := h
  rcases ReflTransGen.cases_head hu with rfl | ⟨m, hm, hmu⟩
  · obtain ⟨m, hm, hmt⟩ := TransGen.head'_iff.mp hloop
    exact ⟨m, hm, t, hmt, hloop⟩
  · exact ⟨m, hm, u, hmu, hloop⟩

theorem finite_leads (d : Declarations) (t : Ty) : {u | ReflTransGen d.HasMember t u}.Finite := by
  refine (List.finite_toSet (Assignability.pool d t t)).subset fun u hu => ?_
  apply Assignability.Reachable.mem_pool
  induction hu with
  | refl => exact .source
  | tail _ hstep ih => exact hstep.reachable ih

/-- Induction over members of members, where they do not lead round in a circle. -/
theorem members_induction {P : Ty → Prop} (ht : ¬ d.Endless t)
    (step : ∀ u, (∀ m, d.HasMember u m → P m) → P u) : P t := by
  let Leads := {u // ReflTransGen d.HasMember t u}
  have hfinite : Finite Leads := (finite_leads d t).to_subtype
  let r : Leads → Leads → Prop := fun m u => TransGen d.HasMember u.1 m.1
  have htrans : IsTrans Leads r := ⟨fun _ _ _ hab hbc => hbc.trans hab⟩
  have hirrefl : Std.Irrefl r := ⟨fun u hu => ht ⟨u.1, u.2, hu⟩⟩
  have hwf : WellFounded r := Finite.wellFounded_of_trans_of_irrefl r
  have hall : ∀ u : Leads, P u.1 := by
    intro u
    induction u using hwf.induction with
    | _ u ih => exact step u.1 fun m hm => ih ⟨m, u.2.tail hm⟩ (.single hm)
  exact hall ⟨t, .refl⟩

section Guarded

/-- A name is declared as a type in which another stands unguarded. -/
def Exposes (d : Declarations) (name name' : String) : Prop :=
  ∃ t, d.target? name = some t ∧ name' ∈ t.exposed

/-- Every cycle of names passes through a field, an element or a position. -/
def Guarded (d : Declarations) : Prop :=
  ∀ name, ¬ TransGen d.Exposes name name

variable {name name' : String}

theorem exposes_of_follow {budget : Nat} {chain : List String}
    (h : d.follow budget chain name = .ok t) (hname' : name' ∈ t.exposed) :
    TransGen d.Exposes name name' := by
  induction budget using Nat.strong_induction_on generalizing chain name with
  | _ budget ih =>
      rcases follow_cases h with
        ⟨names, hresult⟩ | hresult | ⟨t', -, htarget, hresult⟩ | ⟨rest, next, hlt, htarget, hrest⟩
      · cases hresult
      · cases hresult
      · cases hresult
        exact .single ⟨t, htarget, hname'⟩
      · exact .head ⟨.named next, htarget, by simp [Ty.exposed]⟩ (ih rest hlt hrest)

theorem HasMember.exposed (h : d.HasMember t m) (hname' : name' ∈ m.exposed) :
    ∃ name ∈ t.exposed, ReflTransGen d.Exposes name name' := by
  obtain ⟨members, hmembers, hm⟩ := h
  have hunion : name' ∈ (Ty.union members).exposed := by
    rw [Ty.exposed_union]
    exact List.mem_flatMap.mpr ⟨m, hm, hname'⟩
  rcases eq_union_of_resolve hmembers with rfl | ⟨name, rfl⟩
  · exact ⟨name', hunion, .refl⟩
  · refine ⟨name, by simp [Ty.exposed], ?_⟩
    exact (exposes_of_follow hmembers hunion).to_reflTransGen

theorem exposes_of_leads (h : TransGen d.HasMember (.named name) u) (hname' : name' ∈ u.exposed) :
    TransGen d.Exposes name name' := by
  induction h generalizing name' with
  | single hstep =>
      obtain ⟨members, hmembers, hm⟩ := hstep
      refine exposes_of_follow hmembers ?_
      rw [Ty.exposed_union]
      exact List.mem_flatMap.mpr ⟨_, hm, hname'⟩
  | tail _ hstep ih =>
      obtain ⟨next, hnext, hleads⟩ := hstep.exposed hname'
      exact TransGen.trans_left (ih hnext) hleads

theorem leads_cases (h : TransGen d.HasMember t u) : u.size < t.size ∨
    ∃ name, ReflTransGen d.HasMember t (.named name) ∧ TransGen d.HasMember (.named name) u := by
  have hstep : ∀ a b, d.HasMember a b → b.size < a.size ∨ ∃ name, a = .named name := by
    rintro a b ⟨members, hmembers, hb⟩
    rcases eq_union_of_resolve hmembers with rfl | hnamed
    · exact Or.inl (Ty.size_lt_of_mem_parts hb)
    · exact Or.inr hnamed
  induction h with
  | single h =>
      rcases hstep _ _ h with hlt | ⟨name, rfl⟩
      · exact Or.inl hlt
      · exact Or.inr ⟨name, .refl, .single h⟩
  | tail hleads h ih =>
      rcases ih with hlt | ⟨name, hname, hleads'⟩
      · rcases hstep _ _ h with hlt' | ⟨name, rfl⟩
        · exact Or.inl (hlt'.trans hlt)
        · exact Or.inr ⟨name, hleads.to_reflTransGen, .single h⟩
      · exact Or.inr ⟨name, hname, hleads'.tail h⟩

theorem Guarded.not_endless (hd : d.Guarded) (t : Ty) : ¬ d.Endless t := by
  rintro ⟨u, -, hloop⟩
  rcases leads_cases hloop with hlt | ⟨name, hname, hloop'⟩
  · exact lt_irrefl _ hlt
  · have hself : TransGen d.HasMember (.named name) (.named name) := hloop'.trans_left hname
    exact hd name (exposes_of_leads hself (by simp [Ty.exposed]))

/-- Names that can be ranked so that none exposes one of its rank or above are guarded. -/
theorem guarded_of_rank (rank : String → Nat)
    (h : ∀ entry ∈ d.bindings, ∀ name ∈ entry.2.exposed, rank name < rank entry.1) :
    d.Guarded := by
  intro name hloop
  have hlt : ∀ {a b}, TransGen d.Exposes a b → rank b < rank a := by
    intro a b hab
    induction hab with
    | single hab =>
        obtain ⟨t, ht, hb⟩ := hab
        exact h _ (mem_bindings_of_target? ht) _ hb
    | tail _ hbc ih =>
        obtain ⟨t, ht, hc⟩ := hbc
        exact (h _ (mem_bindings_of_target? ht) _ hc).trans ih
  exact lt_irrefl _ (hlt hloop)

end Guarded

end Declarations

end StructuralTypes
