import StructuralTypes.Narrowing.Alternatives
import StructuralTypes.Proofs.Members

namespace StructuralTypes

open Relation

namespace Gathering

variable {g g' : Gathering} {m b : Ty}

theorem mem_found_add (h : b ∈ (g.add m).found) : b ∈ g.found ∨ b = m := by
  unfold add at h
  split at h
  · exact Or.inl h
  · simpa using h

theorem found_subset_add (g : Gathering) (m : Ty) : g.found ⊆ (g.add m).found := by
  unfold add
  split
  · exact List.Subset.refl _
  · exact List.subset_append_left _ _

@[simp] theorem entered_add (g : Gathering) (m : Ty) : (g.add m).entered = g.entered := by
  unfold add
  split <;> rfl

theorem exists_mem_found_add (hm : m.WellFormed) : ∃ b ∈ (g.add m).found, b == m := by
  unfold add
  split
  · rename_i h
    exact List.any_eq_true.mp h
  · exact ⟨m, by simp, Ty.beq_refl hm⟩

theorem pairwise_add (h : g.found.Pairwise fun m m' => (m == m') = false) :
    (g.add m).found.Pairwise fun m m' => (m == m') = false := by
  unfold add
  split
  · exact h
  · rename_i hnew
    refine List.pairwise_append.mpr ⟨h, List.pairwise_singleton _ m, fun b hb b' hb' => ?_⟩
    rw [List.mem_singleton.mp hb']
    simpa using fun hbeq => hnew (List.any_eq_true.mpr ⟨b, hb, hbeq⟩)

/-- The types that equal no union entered so far. -/
def unentered (types : List Ty) (g : Gathering) : Nat :=
  (types.filter fun u => !g.entered.any (· == u)).length

theorem unentered_le (types : List Ty) (h : g.entered ⊆ g'.entered) :
    g'.unentered types ≤ g.unentered types := by
  apply List.Sublist.length_le
  apply List.monotone_filter_right
  intro u hu
  rw [Bool.not_eq_true', ← Bool.not_eq_true] at hu ⊢
  intro hany
  obtain ⟨w, hw, hwu⟩ := List.any_eq_true.mp hany
  exact hu (List.any_eq_true.mpr ⟨w, h hw, hwu⟩)

theorem unentered_cons_lt {types : List Ty} {u : Ty} (hu : u ∈ types) (hwf : u.WellFormed)
    (h : g.entered.any (· == u) = false) :
    unentered types { g with entered := u :: g.entered } < g.unentered types := by
  have hfilter : (types.filter fun x => !(u :: g.entered).any (· == x)) =
      (types.filter fun x => !g.entered.any (· == x)).filter fun x => !(u == x) := by
    simp only [List.any_cons, Bool.not_or, List.filter_filter]
  unfold unentered
  rw [hfilter, List.length_filter_lt_length_iff_exists]
  refine ⟨u, List.mem_filter.mpr ⟨hu, by simp [h]⟩, ?_⟩
  simpa using Ty.beq_refl hwf

end Gathering

namespace Declarations

variable {d : Declarations} {enter : List Ty → Gathering → Except Fault Gathering}
  {members : List Ty} {m t b : Ty} {g g' : Gathering}

theorem gatherMembers_cons_eq_ok {rest : List Ty}
    (h : d.gatherMembers enter (m :: rest) g = .ok g') :
    (∃ us g₁, d.resolve m = .ok (.union us) ∧ enter us g = .ok g₁ ∧
      d.gatherMembers enter rest g₁ = .ok g') ∨
    ∃ r, d.resolve m = .ok r ∧ (∀ us, r ≠ .union us) ∧
      d.gatherMembers enter rest (g.add m) = .ok g' := by
  unfold gatherMembers at h
  split at h
  · cases h
  · rename_i us hm
    split at h
    · cases h
    · rename_i g₁ hg₁
      exact Or.inl ⟨us, g₁, hm, hg₁, h⟩
  · rename_i r hr hm
    exact Or.inr ⟨r, hm, hr, h⟩

theorem gatherUnion_succ_eq_ok {budget : Nat}
    (h : d.gatherUnion (budget + 1) members g = .ok g') :
    (∃ u ∈ g.entered, u == .union members) ∧ g' = g ∨
    g.entered.any (· == .union members) = false ∧
      d.gatherMembers (d.gatherUnion budget) members
        { g with entered := .union members :: g.entered } = .ok g' := by
  unfold gatherUnion at h
  split at h
  · rename_i hany
    cases h
    exact Or.inl ⟨List.any_eq_true.mp hany, rfl⟩
  · rename_i hany
    exact Or.inr ⟨by simpa using hany, h⟩

section Sound

/-- A type that stands for something else than a union. -/
def IsAlternative (d : Declarations) (t : Ty) : Prop :=
  ∃ r, d.resolve t = .ok r ∧ ∀ us, r ≠ .union us

theorem IsAlternative.not_union (h : d.IsAlternative t) (us : List Ty) :
    d.resolve t ≠ .ok (.union us) := by
  obtain ⟨r, hr, hunion⟩ := h
  rw [hr]
  rintro ⟨⟩
  exact hunion us rfl

theorem IsAlternative.of_beq (hd : d.WellFormed) (ht : t.WellFormed) (hbeq : t == b)
    (h : d.IsAlternative t) : d.IsAlternative b := by
  obtain ⟨r, hr, hunion⟩ := h
  obtain ⟨r', hr', hrr⟩ := Assignability.resolve_of_beq hd ht hbeq hr
  refine ⟨r', hr', ?_⟩
  rintro us rfl
  cases Ty.alike_of_beq hrr
  exact hunion _ rfl

theorem gatherMembers_found
    (henter : ∀ us g g', enter us g = .ok g' → ∀ b ∈ g'.found,
      b ∈ g.found ∨ TransGen d.HasMember (.union us) b ∧ d.IsAlternative b)
    (h : d.gatherMembers enter members g = .ok g') (hb : b ∈ g'.found) :
    b ∈ g.found ∨ (∃ m ∈ members, ReflTransGen d.HasMember m b) ∧ d.IsAlternative b := by
  induction members generalizing g with
  | nil =>
      cases h
      exact Or.inl hb
  | cons m rest ih =>
      rcases gatherMembers_cons_eq_ok h with ⟨us, g₁, hm, hg₁, hrest⟩ | ⟨r, hr, hunion, hrest⟩
      · rcases ih hrest with hb | ⟨⟨m', hm', hleads⟩, halternative⟩
        · rcases henter us g g₁ hg₁ b hb with hb | ⟨hleads, halternative⟩
          · exact Or.inl hb
          · have hleads' := (leads_of_resolve hm hleads).to_reflTransGen
            exact Or.inr ⟨⟨m, List.mem_cons_self, hleads'⟩, halternative⟩
        · exact Or.inr ⟨⟨m', List.mem_cons_of_mem m hm', hleads⟩, halternative⟩
      · rcases ih hrest with hb | ⟨⟨m', hm', hleads⟩, halternative⟩
        · rcases Gathering.mem_found_add hb with hb | rfl
          · exact Or.inl hb
          · exact Or.inr ⟨⟨b, List.mem_cons_self, .refl⟩, r, hr, hunion⟩
        · exact Or.inr ⟨⟨m', List.mem_cons_of_mem m hm', hleads⟩, halternative⟩

theorem gatherUnion_found {budget : Nat} (h : d.gatherUnion budget members g = .ok g')
    (hb : b ∈ g'.found) :
    b ∈ g.found ∨ TransGen d.HasMember (.union members) b ∧ d.IsAlternative b := by
  induction budget generalizing members g g' b with
  | zero =>
      cases h
      exact Or.inl hb
  | succ budget ih =>
      rcases gatherUnion_succ_eq_ok h with ⟨-, rfl⟩ | ⟨-, hrun⟩
      · exact Or.inl hb
      · rcases gatherMembers_found (fun us g g' hg' b => ih hg') hrun hb with
          hb | ⟨⟨m, hm, hleads⟩, halternative⟩
        · exact Or.inl hb
        · exact Or.inr ⟨.head' (hasMember_union hm) hleads, halternative⟩

end Sound

section Differing

theorem gatherMembers_pairwise
    (henter : ∀ us g g', enter us g = .ok g' → g.found.Pairwise (fun m m' => (m == m') = false) →
      g'.found.Pairwise fun m m' => (m == m') = false)
    (h : d.gatherMembers enter members g = .ok g')
    (hg : g.found.Pairwise fun m m' => (m == m') = false) :
    g'.found.Pairwise fun m m' => (m == m') = false := by
  induction members generalizing g with
  | nil =>
      cases h
      exact hg
  | cons m rest ih =>
      rcases gatherMembers_cons_eq_ok h with ⟨us, g₁, -, hg₁, hrest⟩ | ⟨r, -, -, hrest⟩
      · exact ih hrest (henter us g g₁ hg₁ hg)
      · exact ih hrest (Gathering.pairwise_add hg)

theorem gatherUnion_pairwise {budget : Nat} (h : d.gatherUnion budget members g = .ok g')
    (hg : g.found.Pairwise fun m m' => (m == m') = false) :
    g'.found.Pairwise fun m m' => (m == m') = false := by
  induction budget generalizing members g g' with
  | zero =>
      cases h
      exact hg
  | succ budget ih =>
      rcases gatherUnion_succ_eq_ok h with ⟨-, rfl⟩ | ⟨-, hrun⟩
      · exact hg
      · exact gatherMembers_pairwise (fun us g g' hg' => ih hg') hrun hg

end Differing

section Complete

/-- A member that has been dealt with: the union that it stands for was entered, or it was found. -/
inductive Settled (d : Declarations) (g : Gathering) (m : Ty) : Prop
  | entered {us : List Ty} {u : Ty} (hm : d.resolve m = .ok (.union us)) (hu : u ∈ g.entered)
      (h : u == .union us)
  | found {b : Ty} (hm : d.IsAlternative m) (hb : b ∈ g.found) (h : b == m)

/-- A gathering goes on from another, and the members of every union that it entered are settled. -/
structure Completes (d : Declarations) (g g' : Gathering) : Prop where
  entered : g.entered ⊆ g'.entered
  found : g.found ⊆ g'.found
  settled : ∀ u ∈ g'.entered, u ∉ g.entered →
    u.WellFormed ∧ ∀ m, d.HasMember u m → d.Settled g' m

theorem Settled.mono (hentered : g.entered ⊆ g'.entered) (hfound : g.found ⊆ g'.found)
    (h : d.Settled g m) : d.Settled g' m := by
  cases h with
  | entered hm hu h => exact .entered hm (hentered hu) h
  | found hm hb h => exact .found hm (hfound hb) h

theorem Completes.refl (g : Gathering) : d.Completes g g :=
  ⟨List.Subset.refl _, List.Subset.refl _, fun _ hu hnot => absurd hu hnot⟩

theorem Completes.trans {g'' : Gathering} (h : d.Completes g g') (h' : d.Completes g' g'') :
    d.Completes g g'' where
  entered := List.Subset.trans h.entered h'.entered
  found := List.Subset.trans h.found h'.found
  settled := by
    intro u hu hnot
    by_cases hu' : u ∈ g'.entered
    · obtain ⟨hwf, hsettled⟩ := h.settled u hu' hnot
      exact ⟨hwf, fun m hm => (hsettled m hm).mono h'.entered h'.found⟩
    · exact h'.settled u hu hu'

theorem completes_add (g : Gathering) (m : Ty) : d.Completes g (g.add m) := by
  refine ⟨by simp, g.found_subset_add m, fun u hu hnot => ?_⟩
  rw [Gathering.entered_add] at hu
  exact absurd hu hnot

theorem gatherMembers_completes (hwf : ∀ m ∈ members, m.WellFormed)
    (henter : ∀ m ∈ members, ∀ us, d.resolve m = .ok (.union us) → ∀ g₁ g₂,
      g.entered ⊆ g₁.entered → enter us g₁ = .ok g₂ →
      d.Completes g₁ g₂ ∧ ∃ u ∈ g₂.entered, u == .union us)
    (h : d.gatherMembers enter members g = .ok g') :
    d.Completes g g' ∧ ∀ m ∈ members, d.Settled g' m := by
  induction members generalizing g with
  | nil =>
      cases h
      exact ⟨.refl g', by simp⟩
  | cons m rest ih =>
      rw [List.forall_mem_cons] at hwf henter
      rw [List.forall_mem_cons]
      -- one member leads to a gathering in which it is settled, from which the rest goes on
      have hone : ∃ g₁, d.Completes g g₁ ∧ d.Settled g₁ m ∧
          d.gatherMembers enter rest g₁ = .ok g' := by
        rcases gatherMembers_cons_eq_ok h with ⟨us, g₁, hm, hg₁, hrest⟩ | ⟨r, hr, hunion, hrest⟩
        · obtain ⟨hcompletes, u, hu, hus⟩ :=
            henter.1 us hm g g₁ (List.Subset.refl _) hg₁
          exact ⟨g₁, hcompletes, .entered hm hu hus, hrest⟩
        · obtain ⟨b, hb, hbm⟩ := Gathering.exists_mem_found_add hwf.1
          exact ⟨g.add m, completes_add g m, .found ⟨r, hr, hunion⟩ hb hbm, hrest⟩
      obtain ⟨g₁, hfirst, hsettled, hrest⟩ := hone
      obtain ⟨hcompletes, hall⟩ := ih hwf.2 (fun m' hm' us hus g₂ g₃ hsub =>
        henter.2 m' hm' us hus g₂ g₃ (List.Subset.trans hfirst.entered hsub)) hrest
      exact ⟨hfirst.trans hcompletes, hsettled.mono hcompletes.entered hcompletes.found, hall⟩

/-- The types inside a type and the declarations. -/
def atHand (d : Declarations) (t : Ty) : List Ty :=
  t.inside ++ d.bindings.flatMap fun entry => entry.2.inside

theorem length_atHand (d : Declarations) (t : Ty) : (d.atHand t).length = t.size + d.size := by
  simp only [atHand, List.length_append, List.length_flatMap, Ty.length_inside,
    Assignability.size_eq_sum]

theorem mem_atHand_of_mem_parts {u : Ty} (hm : m ∈ u.parts) (hu : u ∈ d.atHand t) :
    m ∈ d.atHand t := by
  rw [atHand, List.mem_append, List.mem_flatMap] at hu ⊢
  rcases hu with hu | ⟨entry, hentry, hu⟩
  · exact Or.inl (Ty.mem_inside_of_mem_parts hm hu)
  · exact Or.inr ⟨entry, hentry, Ty.mem_inside_of_mem_parts hm hu⟩

theorem mem_atHand_of_resolve {r : Ty} (hm : m ∈ d.atHand t) (h : d.resolve m = .ok r) :
    r ∈ d.atHand t := by
  rcases resolve_eq_ok h with rfl | ⟨name, hname⟩
  · exact hm
  · rw [atHand, List.mem_append, List.mem_flatMap]
    exact Or.inr ⟨_, hname, Ty.self_mem_inside r⟩

theorem union_mem_atHand (ht : d.resolve t = .ok (.union members)) :
    .union members ∈ d.atHand t :=
  mem_atHand_of_resolve (List.mem_append_left _ t.self_mem_inside) ht

theorem unentered_start_lt (d : Declarations) (t : Ty) :
    Gathering.start.unentered (d.atHand t) < t.size + d.size + 1 := by
  have hle : Gathering.start.unentered (d.atHand t) ≤ (d.atHand t).length :=
    List.length_filter_le _ _
  rw [length_atHand] at hle
  omega

theorem gatherUnion_completes (hd : d.WellFormed) {budget : Nat}
    (hmem : .union members ∈ d.atHand t) (hwf : (Ty.union members).WellFormed)
    (hbudget : g.unentered (d.atHand t) < budget)
    (h : d.gatherUnion budget members g = .ok g') :
    d.Completes g g' ∧ ∃ u ∈ g'.entered, u == .union members := by
  induction budget generalizing members g g' with
  | zero => omega
  | succ budget ih =>
      rcases gatherUnion_succ_eq_ok h with ⟨hentered, rfl⟩ | ⟨hnew, hrun⟩
      · exact ⟨.refl g', hentered⟩
      · -- the union at hand is entered, which leaves one union less to enter further down
        have hlt := Gathering.unentered_cons_lt hmem hwf hnew
        obtain ⟨hcompletes, hall⟩ := gatherMembers_completes (fun m hm => hwf.part hm)
          (fun m hm us hus g₁ g₂ hsub hg₂ =>
            ih (mem_atHand_of_resolve (mem_atHand_of_mem_parts hm hmem) hus)
              (hd.resolve (hwf.part hm) hus)
              (by have := Gathering.unentered_le (d.atHand t) hsub; omega) hg₂) hrun
        have hself := hcompletes.entered List.mem_cons_self
        refine ⟨⟨?_, hcompletes.found, fun u hu hnot => ?_⟩, _, hself, Ty.beq_refl hwf⟩
        · exact List.Subset.trans (List.subset_cons_self _ _) hcompletes.entered
        · by_cases heq : u = .union members
          · subst heq
            refine ⟨hwf, ?_⟩
            rintro m ⟨us, hus, hm⟩
            cases hus
            exact hall m hm
          · refine hcompletes.settled u hu ?_
            rw [List.mem_cons, not_or]
            exact ⟨heq, hnot⟩

/-- The unions entered in a gathering that has come to its end. -/
def Complete (d : Declarations) (g : Gathering) : Prop :=
  ∀ u ∈ g.entered, u.WellFormed ∧ ∀ m, d.HasMember u m → d.Settled g m

theorem Complete.settled_member (hg : d.Complete g) {u : Ty} (hu : u ∈ g.entered)
    (hbeq : u == .union members) (hm : m ∈ members) :
    ∃ c, c == m ∧ c.WellFormed ∧ d.Settled g c := by
  cases Ty.alike_of_beq hbeq with
  | union _ back =>
      obtain ⟨c, hc, hcm⟩ := back m hm
      obtain ⟨hwf, hsettled⟩ := hg _ hu
      exact ⟨c, hcm, hwf.part hc, hsettled c (hasMember_union hc)⟩

/-- Of everything that an entered union leads to, an equal type is settled. -/
theorem Complete.settled_of_leads (hd : d.WellFormed) (hg : d.Complete g) {u : Ty}
    (hu : u ∈ g.entered) (hbeq : u == .union members)
    (hleads : TransGen d.HasMember (.union members) b) :
    ∃ c, c == b ∧ c.WellFormed ∧ d.Settled g c := by
  induction hleads with
  | single hm =>
      obtain ⟨us, hus, hm⟩ := hm
      cases hus
      exact hg.settled_member hu hbeq hm
  | tail _ hm ih =>
      obtain ⟨us, hus, hm⟩ := hm
      obtain ⟨c, hcb, hwf, hsettled⟩ := ih
      cases hsettled with
      | entered hc hu' hbeq' =>
          obtain ⟨r, hr, hrr⟩ := Assignability.resolve_of_beq hd hwf hcb hc
          rw [hus] at hr
          cases hr
          exact hg.settled_member hu' (Ty.beq_trans hbeq' hrr) hm
      | found hc => exact absurd hus ((hc.of_beq hd hwf hcb).not_union us)

end Complete

section Alternatives

variable {alts : List Ty}

theorem alternatives_eq_ok (ht : d.resolve t = .ok (.union members))
    (h : d.alternatives t = .ok alts) :
    ∃ g, d.gatherUnion (t.size + d.size + 1) members .start = .ok g ∧ g.found = alts := by
  simp only [alternatives, ht] at h
  cases hrun : d.gatherUnion (t.size + d.size + 1) members .start with
  | error fault =>
      rw [hrun] at h
      cases h
  | ok g =>
      rw [hrun] at h
      cases h
      exact ⟨g, rfl, rfl⟩

theorem alternatives_cases (h : d.alternatives t = .ok alts) :
    (∃ members, d.resolve t = .ok (.union members)) ∨
      ∃ r, d.resolve t = .ok r ∧ (∀ us, r ≠ .union us) ∧ alts = [r] := by
  unfold alternatives at h
  split at h
  · cases h
  · rename_i members ht
    exact Or.inl ⟨members, ht⟩
  · rename_i r hr ht
    cases h
    exact Or.inr ⟨r, ht, hr, rfl⟩

theorem alternatives_pairwise (h : d.alternatives t = .ok alts) :
    alts.Pairwise fun m m' => (m == m') = false := by
  rcases alternatives_cases h with ⟨members, ht⟩ | ⟨r, -, -, rfl⟩
  · obtain ⟨g, hrun, rfl⟩ := alternatives_eq_ok ht h
    exact gatherUnion_pairwise hrun .nil
  · exact List.pairwise_singleton _ r

theorem leads_of_mem_alternatives (ht : d.resolve t = .ok (.union members))
    (h : d.alternatives t = .ok alts) (hb : b ∈ alts) :
    TransGen d.HasMember t b ∧ d.IsAlternative b := by
  obtain ⟨g, hrun, rfl⟩ := alternatives_eq_ok ht h
  rcases gatherUnion_found hrun hb with hb | ⟨hleads, halternative⟩
  · cases hb
  · exact ⟨leads_of_resolve ht hleads, halternative⟩

theorem wellFormed_of_mem_alternatives (hd : d.WellFormed) (hwf : t.WellFormed)
    (ht : d.resolve t = .ok (.union members)) (h : d.alternatives t = .ok alts) (hb : b ∈ alts) :
    b.WellFormed :=
  wellFormed_of_leads hd hwf (leads_of_mem_alternatives ht h hb).1.to_reflTransGen

/-- Every member of members that stands for no union equals an alternative. -/
theorem exists_alternative_of_leads (hd : d.WellFormed) (hwf : t.WellFormed)
    (ht : d.resolve t = .ok (.union members)) (h : d.alternatives t = .ok alts)
    (hleads : TransGen d.HasMember t b) (hb : d.IsAlternative b) : ∃ c ∈ alts, c == b := by
  obtain ⟨g, hrun, rfl⟩ := alternatives_eq_ok ht h
  obtain ⟨hcompletes, u, hu, hbeq⟩ := gatherUnion_completes hd (union_mem_atHand ht)
    (hd.resolve hwf ht) (unentered_start_lt d t) hrun
  have hcomplete : d.Complete g := fun w hw => hcompletes.settled w hw (by simp [Gathering.start])
  obtain ⟨m, hm, hmb⟩ := TransGen.head'_iff.mp hleads
  obtain ⟨c, hcb, hwfc, hsettled⟩ :=
    hcomplete.settled_of_leads hd hu hbeq (.head' (hm.resolve ht) hmb)
  have hwfb := wellFormed_of_leads hd hwf hleads.to_reflTransGen
  cases hsettled with
  | entered hc => exact absurd hc ((hb.of_beq hd hwfb (Ty.beq_symm hwfc hwfb hcb)).not_union _)
  | found _ hfound hbeq' => exact ⟨_, hfound, Ty.beq_trans hbeq' hcb⟩

end Alternatives

end Declarations

end StructuralTypes
