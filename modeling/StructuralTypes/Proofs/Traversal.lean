import StructuralTypes.Proofs.Resolvable
import StructuralTypes.Proofs.StructuralEquality

namespace StructuralTypes

open Relation

namespace Ty

theorem any_distinct (types : List Ty) (m : Ty) :
    (distinct types).any (· == m) = types.any (· == m) := by
  rw [Bool.eq_iff_iff, List.any_eq_true, List.any_eq_true]
  constructor
  · rintro ⟨t, ht, hbeq⟩
    exact ⟨t, mem_of_mem_distinct ht, hbeq⟩
  · rintro ⟨t, ht, hbeq⟩
    exact exists_distinct_beq ht hbeq

theorem distinct_concat (types : List Ty) (m : Ty) :
    distinct (types ++ [m]) =
      if types.any (· == m) then distinct types else distinct types ++ [m] := by
  induction types with
  | nil => rfl
  | cons first rest ih =>
      rw [List.cons_append, distinct, distinct, ih, List.any_cons]
      cases hrest : rest.any (· == m) with
      | true => simp
      | false => cases hfirst : first == m <;> simp [List.filter_append, hfirst]

end Ty

/-- A traversal on its way: the types that wait, the next of them first, the unions that were
entered, and the types that were visited, the first of them first. -/
structure Traversal where
  pending : List Ty
  entered : List Ty
  visited : List Ty

namespace Traversal

variable {d : Declarations}

/-- One step deals with the next type. -/
inductive Step (d : Declarations) : Traversal → Traversal → Prop
  /-- A type that stands for no union is visited. -/
  | visit {m : Ty} {rest entered visited : List Ty} (h : d.IsAlternative m) :
      Step d ⟨m :: rest, entered, visited⟩ ⟨rest, entered, visited ++ [m]⟩
  /-- The members of a union that equals none before are next. -/
  | enter {m : Ty} {members rest entered visited : List Ty}
      (h : d.resolve m = .ok (.union members))
      (hnew : entered.any (· == .union members) = false) :
      Step d ⟨m :: rest, entered, visited⟩
        ⟨members ++ rest, .union members :: entered, visited⟩
  /-- A union that equals an earlier one is passed over. -/
  | pass {m : Ty} {members rest entered visited : List Ty}
      (h : d.resolve m = .ok (.union members))
      (hold : entered.any (· == .union members) = true) :
      Step d ⟨m :: rest, entered, visited⟩ ⟨rest, entered, visited⟩

theorem Step.unique {a b c : Traversal} (h : Step d a b) (h' : Step d a c) : b = c := by
  cases h with
  | visit h =>
      cases h' with
      | visit => rfl
      | enter hunion => exact absurd hunion (h.not_union _)
      | pass hunion => exact absurd hunion (h.not_union _)
  | enter hunion hnew =>
      cases h' with
      | visit h => exact absurd hunion (h.not_union _)
      | enter hunion' =>
          cases hunion.symm.trans hunion'
          rfl
      | pass hunion' hold =>
          cases hunion.symm.trans hunion'
          cases hnew.symm.trans hold
  | pass hunion hold =>
      cases h' with
      | visit h => exact absurd hunion (h.not_union _)
      | enter hunion' hnew =>
          cases hunion.symm.trans hunion'
          cases hnew.symm.trans hold
      | pass => rfl

theorem eq_of_no_pending {entered visited : List Ty} {b : Traversal}
    (h : ReflTransGen (Step d) ⟨[], entered, visited⟩ b) : b = ⟨[], entered, visited⟩ := by
  rcases ReflTransGen.cases_head h with heq | ⟨c, hstep, -⟩
  · exact heq.symm
  · cases hstep

end Traversal

namespace Declarations

/-- The traversal of a type comes to its end with these visits. -/
def Visits (d : Declarations) (t : Ty) (visits : List Ty) : Prop :=
  ∃ entered, ReflTransGen (Traversal.Step d) ⟨[t], [], []⟩ ⟨[], entered, visits⟩

variable {d : Declarations} {u t m : Ty} {g g₁ g' : Gathering} {types : List Ty}

theorem Visits.unique {visits visits' : List Ty} (h : d.Visits t visits)
    (h' : d.Visits t visits') : visits = visits' := by
  obtain ⟨entered, hrun⟩ := h
  obtain ⟨entered', hrun'⟩ := h'
  have hright : Relator.RightUnique (Traversal.Step d) := fun _ _ _ => Traversal.Step.unique
  rcases ReflTransGen.total_of_right_unique hright hrun hrun' with hlater | hlater
  · cases Traversal.eq_of_no_pending hlater
    rfl
  · cases Traversal.eq_of_no_pending hlater
    rfl

section Traces

/-- Collecting from types goes along with a traversal that has them in front: what is found are the
distinct visits, before and after. -/
def Traces (d : Declarations) (types : List Ty) (g g' : Gathering) : Prop :=
  ∀ visited, g.found = Ty.distinct visited → ∃ visited', g'.found = Ty.distinct visited' ∧
    ∀ rest, ReflTransGen (Traversal.Step d) ⟨types ++ rest, g.entered, visited⟩
      ⟨rest, g'.entered, visited'⟩

theorem Traces.nil (g : Gathering) : d.Traces [] g g :=
  fun visited hfound => ⟨visited, hfound, fun _ => .refl⟩

theorem Traces.cons (h : d.Traces [m] g g₁) (h' : d.Traces types g₁ g') :
    d.Traces (m :: types) g g' := by
  intro visited hfound
  obtain ⟨visited₁, hfound₁, hrun⟩ := h visited hfound
  obtain ⟨visited', hfound', hrun'⟩ := h' visited₁ hfound₁
  exact ⟨visited', hfound', fun rest => (hrun (types ++ rest)).trans (hrun' rest)⟩

theorem traces_add (hm : d.IsAlternative m) (g : Gathering) : d.Traces [m] g (g.add m) := by
  intro visited hfound
  refine ⟨visited ++ [m], ?_, fun rest => ?_⟩
  · have hany : g.found.any (· == m) = visited.any (· == m) := by
      rw [hfound, Ty.any_distinct]
    rw [Ty.distinct_concat, ← hany, ← hfound, Gathering.add]
    split <;> rfl
  · rw [Gathering.entered_add]
    exact .single (.visit hm)

theorem traces_pass {members : List Ty} (hm : d.resolve m = .ok (.union members))
    (hold : g.entered.any (· == .union members) = true) : d.Traces [m] g g :=
  fun visited hfound => ⟨visited, hfound, fun _ => .single (.pass hm hold)⟩

theorem traces_enter {members : List Ty} (hm : d.resolve m = .ok (.union members))
    (hnew : g.entered.any (· == .union members) = false)
    (h : d.Traces members { g with entered := .union members :: g.entered } g') :
    d.Traces [m] g g' := by
  intro visited hfound
  obtain ⟨visited', hfound', hrun⟩ := h visited hfound
  exact ⟨visited', hfound', fun rest => .head (.enter hm hnew) (hrun rest)⟩

theorem gatherMembers_traces {enter : List Ty → Gathering → Except Fault Gathering}
    {members : List Ty} (hgrows : ∀ us g g', enter us g = .ok g' → g.entered ⊆ g'.entered)
    (henter : ∀ m ∈ members, ∀ us, d.resolve m = .ok (.union us) → ∀ g₁ g₂,
      g.entered ⊆ g₁.entered → enter us g₁ = .ok g₂ → d.Traces [m] g₁ g₂)
    (h : d.gatherMembers enter members g = .ok g') : d.Traces members g g' := by
  induction members generalizing g with
  | nil =>
      cases h
      exact .nil g'
  | cons m rest ih =>
      rw [List.forall_mem_cons] at henter
      rcases gatherMembers_cons_eq_ok h with ⟨us, g₁, hm, hg₁, hrest⟩ | ⟨r, hr, hunion, hrest⟩
      · have hsub := hgrows us g g₁ hg₁
        refine .cons (henter.1 us hm g g₁ (List.Subset.refl _) hg₁) (ih ?_ hrest)
        exact fun m' hm' us' hus' g₂ g₃ hsub' =>
          henter.2 m' hm' us' hus' g₂ g₃ (List.Subset.trans hsub hsub')
      · refine .cons (traces_add ⟨r, hr, hunion⟩ g) (ih ?_ hrest)
        simpa using henter.2

/-- The budget does not show: as long as it exceeds the number of unions that are left to enter, a
union is entered exactly when the traversal enters it. -/
theorem gatherUnion_traces (hd : d.WellFormed) {budget : Nat} {members : List Ty}
    (hm : d.resolve m = .ok (.union members)) (hmem : .union members ∈ d.atHand t)
    (hwf : (Ty.union members).WellFormed) (hbudget : g.unentered (d.atHand t) < budget)
    (h : d.gatherUnion budget members g = .ok g') : d.Traces [m] g g' := by
  induction budget generalizing m members g g' with
  | zero => omega
  | succ budget ih =>
      rcases gatherUnion_succ_eq_ok h with ⟨hold, rfl⟩ | ⟨hnew, hrun⟩
      · exact traces_pass hm (List.any_eq_true.mpr hold)
      · have hlt := Gathering.unentered_cons_lt hmem hwf hnew
        refine traces_enter hm hnew
          (gatherMembers_traces (fun _ _ _ => gatherUnion_entered) ?_ hrun)
        intro m' hm' us hus g₁ g₂ hsub hg₂
        have hle := Gathering.unentered_le (d.atHand t) hsub
        exact ih hus (mem_atHand_of_resolve (mem_atHand_of_mem_parts hm' hmem) hus)
          (hd.resolve (hwf.part hm') hus) (by omega) hg₂

theorem exists_visits (hd : d.WellFormed) (hu : u.WellFormed) {members alts : List Ty}
    (hmembers : d.resolve u = .ok (.union members)) (halts : d.alternatives u = .ok alts) :
    ∃ visits, d.Visits u visits ∧ alts = Ty.firsts visits := by
  obtain ⟨g, hrun, rfl⟩ := alternatives_eq_ok hmembers halts
  obtain ⟨visits, hfound, hsteps⟩ := gatherUnion_traces hd hmembers (union_mem_atHand hmembers)
    (hd.resolve hu hmembers) (unentered_start_lt d u) hrun [] rfl
  exact ⟨visits, ⟨g.entered, hsteps []⟩, hfound.trans (Ty.distinct_eq_firsts visits)⟩

end Traces

/-- The alternatives of a type are found, and for a union they are all the types that stand for no
union and that it leads to, through names and union membership alone: no two equal ones, and in the
order in which a traversal that enters each union once visits them first. -/
theorem alternatives_traversed (hd : d.WellFormed) (hu : u.WellFormed) (hresolves : d.Resolves u) :
    ∃ alts, d.alternatives u = .ok alts ∧
      (∀ r, d.resolve u = .ok r → (∀ members, r ≠ .union members) → alts = [r]) ∧
      ∀ members, d.resolve u = .ok (.union members) →
        (alts.Pairwise fun a b => (a == b) = false) ∧
        (∀ a ∈ alts, TransGen d.HasMember u a ∧ d.IsAlternative a) ∧
        (∀ x, (∃ a ∈ alts, a == x) ↔
          ∃ b, TransGen d.HasMember u b ∧ d.IsAlternative b ∧ b == x) ∧
        (∃ visits, d.Visits u visits) ∧ ∀ visits, d.Visits u visits → alts = Ty.firsts visits := by
  obtain ⟨alts, halts⟩ := hresolves.alternatives
  refine ⟨alts, halts, fun r hr hunion => ?_, fun members hmembers => ?_⟩
  · rcases alternatives_cases halts with ⟨members, hmembers⟩ | ⟨r', hr', -, heq⟩
    · exact absurd (Except.ok.inj (hr.symm.trans hmembers)) (hunion members)
    · rw [heq, Except.ok.inj (hr.symm.trans hr')]
  · have hsound : ∀ a ∈ alts, TransGen d.HasMember u a ∧ d.IsAlternative a :=
      fun a ha => leads_of_mem_alternatives hmembers halts ha
    obtain ⟨visits, hvisits, horder⟩ := exists_visits hd hu hmembers halts
    refine ⟨alternatives_pairwise halts, hsound, fun x => ⟨?_, ?_⟩, ⟨visits, hvisits⟩, ?_⟩
    · rintro ⟨a, ha, hbeq⟩
      exact ⟨a, (hsound a ha).1, (hsound a ha).2, hbeq⟩
    · rintro ⟨b, hleads, hb, hbeq⟩
      obtain ⟨a, ha, hab⟩ := exists_alternative_of_leads hd hu hmembers halts hleads hb
      exact ⟨a, ha, Ty.beq_trans hab hbeq⟩
    · intro visits' hvisits'
      rw [horder, hvisits.unique hvisits']

/-- Events and signals lead to each other. The union inside the signals equals the events, which are
entered but not yet traversed when it is met. -/
def signals : Declarations :=
  .ofList [
    ("Event", .union [.named "Signal", .string]),
    ("Signal", .union [.named "Event", .number,
      .union [.string, .named "Signal"]])]

theorem alternatives_traversed_signals :
    signals.alternatives (.named "Event") = .ok [.number, .string] ∧
      (∀ b, TransGen signals.HasMember (.named "Event") b → signals.IsAlternative b →
        ∃ a ∈ [Ty.number, .string], a == b) ∧
      ∃ visits, signals.Visits (.named "Event") visits ∧
        Ty.firsts visits = [.number, .string] := by
  have hd : signals.WellFormed := by decide
  have halts : signals.alternatives (.named "Event") =
      .ok [.number, .string] := rfl
  obtain ⟨alts, halts', -, hunion⟩ :=
    alternatives_traversed hd (u := .named "Event") (by decide) (resolves_of_pool (by decide))
  cases halts.symm.trans halts'
  obtain ⟨-, -, hmem, ⟨visits, hvisits⟩, horder⟩ := hunion _ rfl
  refine ⟨halts, fun b hleads hb => ?_, visits, hvisits, (horder visits hvisits).symm⟩
  have hwf := wellFormed_of_leads hd (by decide) hleads.to_reflTransGen
  exact (hmem b).mpr ⟨b, hleads, hb, Ty.beq_refl hwf⟩

end Declarations

end StructuralTypes
