import StructuralTypes.Proofs.AssignableEquality
import StructuralTypes.Proofs.Origins

/-!
Runs of the search. A run only puts new pairs in front of the assumptions it starts from, so that
giving up the assumptions of a failed attempt restores them exactly. The inversion lemmas say, for
each outcome of a run, which runs one level down it rests on.
-/

namespace StructuralTypes.Assignability

namespace Assumptions

variable {A B C : Assumptions}

def WellFormed (A : Assumptions) : Prop :=
  ∀ p ∈ A, p.1.WellFormed ∧ p.2.WellFormed

theorem holds_iff {s t : Ty} : A.holds s t = true ↔ ∃ p ∈ A, p.1 == s ∧ p.2 == t := by
  simp only [holds, List.any_eq_true, Bool.and_eq_true]

/-- The later assumptions are the earlier ones with pairs in front that did not hold. -/
def Grows (A B : Assumptions) : Prop :=
  ∃ added : Assumptions, B = added ++ A ∧ added.WellFormed ∧
    ∀ p ∈ added, A.holds p.1 p.2 = false

theorem Grows.refl (A : Assumptions) : A.Grows A :=
  ⟨[], rfl, by simp [WellFormed], by simp⟩

theorem Grows.subset (h : A.Grows B) : A ⊆ B := by
  obtain ⟨added, rfl, -⟩ := h
  exact List.subset_append_right added A

theorem Grows.holds (h : A.Grows B) {s t : Ty} (hA : A.holds s t = true) :
    B.holds s t = true := by
  rw [holds_iff] at hA ⊢
  obtain ⟨p, hp, hpair⟩ := hA
  exact ⟨p, h.subset hp, hpair⟩

theorem Grows.trans (hAB : A.Grows B) (hBC : B.Grows C) : A.Grows C := by
  have hgrows := hAB
  obtain ⟨added, rfl, hwf, hnew⟩ := hAB
  obtain ⟨added', rfl, hwf', hnew'⟩ := hBC
  refine ⟨added' ++ added, by rw [List.append_assoc], ?_, ?_⟩
  · intro p hp
    exact (List.mem_append.mp hp).elim (hwf' p) (hwf p)
  · intro p hp
    rcases List.mem_append.mp hp with hp | hp
    · have hnot := hnew' p hp
      rw [← Bool.not_eq_true] at hnot ⊢
      exact fun hA => hnot (hgrows.holds hA)
    · exact hnew p hp

theorem Grows.wellFormed (h : A.Grows B) (hA : A.WellFormed) : B.WellFormed := by
  obtain ⟨added, rfl, hwf, -⟩ := h
  intro p hp
  exact (List.mem_append.mp hp).elim (hwf p) (hA p)

theorem grows_cons {s t : Ty} (hs : s.WellFormed) (ht : t.WellFormed)
    (h : A.holds s t = false) : A.Grows ((s, t) :: A) :=
  ⟨[(s, t)], rfl, by simpa [WellFormed] using ⟨hs, ht⟩, by simpa using h⟩

theorem WellFormed.holds_of_mem (hA : A.WellFormed) {p : Ty × Ty} (hp : p ∈ A) :
    A.holds p.1 p.2 = true :=
  holds_iff.mpr ⟨p, hp, Ty.beq_refl (hA p hp).1, Ty.beq_refl (hA p hp).2⟩

theorem Grows.rollback (hA : A.WellFormed) (h : A.Grows B) : B.rollback A = A := by
  obtain ⟨added, rfl, -, hnew⟩ := h
  have hadded : added.filter (fun p => A.holds p.1 p.2) = [] := by
    rw [List.filter_eq_nil_iff]
    intro p hp
    simp [hnew p hp]
  have hkept : A.filter (fun p => A.holds p.1 p.2) = A := by
    rw [List.filter_eq_self]
    intro p hp
    exact hA.holds_of_mem hp
  rw [Assumptions.rollback, List.filter_append, hadded, hkept, List.nil_append]

end Assumptions

/-- Judging a source against a target only takes on assumptions. -/
def Keeps (judge : Judge) (s t : Ty) : Prop :=
  ∀ A v B, Assumptions.WellFormed A → judge s t A = .ok (v, B) → A.Grows B

theorem isAccepted_of_ne {v : Verdict} (h : v ≠ .accepted) : v.isAccepted = false := by
  cases v with
  | accepted => exact absurd rfl h
  | rejected => rfl

theorem eq_accepted_of_isAccepted {v : Verdict} (h : v.isAccepted = true) : v = .accepted := by
  cases v with
  | accepted => rfl
  | rejected => cases h

theorem isAccepted_under (path : Path) (v : Verdict) :
    (v.under path).isAccepted = v.isAccepted := by
  cases v with
  | accepted => rfl
  | rejected => rfl

section All

variable {judge : Judge} {o : Obligation} {obligations rest : List Obligation} {A B : Assumptions}
  {v : Verdict}

theorem judgeAll_cons_eq_ok (h : judgeAll judge (o :: rest) A = .ok (v, B)) :
    (∃ path reason s t, o = .unmet path reason s t ∧
      v = .rejected path reason (some s) (some t) [] ∧ B = A) ∨
    (∃ path s t C, o = .fits path s t ∧ judge s t A = .ok (.accepted, C) ∧
      judgeAll judge rest C = .ok (v, B)) ∨
    ∃ path s t w, o = .fits path s t ∧ judge s t A = .ok (w, B) ∧ w.isAccepted = false ∧
      v = w.under path := by
  cases o with
  | fault fault => cases h
  | unmet path reason s t =>
      cases h
      exact Or.inl ⟨path, reason, s, t, rfl, rfl, rfl⟩
  | fits path s t =>
      rw [judgeAll] at h
      split at h
      · cases h
      · rename_i C hrun
        exact Or.inr (Or.inl ⟨path, s, t, C, rfl, hrun, h⟩)
      · rename_i w C hw hrun
        cases h
        exact Or.inr (Or.inr ⟨path, s, t, w, rfl, hrun, isAccepted_of_ne hw, rfl⟩)

/-- What every fit does to the assumptions, and what composes, is done to them by all. -/
theorem judgeAll_chain {Q : Assumptions → Assumptions → Prop} (refl : ∀ C, Q C C)
    (trans : ∀ C D E, Q C D → Q D E → Q C E)
    (hkeeps : ∀ path s t, .fits path s t ∈ obligations → Keeps judge s t) (hA : A.WellFormed)
    (hQ : ∀ path s t C w D, .fits path s t ∈ obligations → C.WellFormed →
      judge s t C = .ok (w, D) → (v.isAccepted = true → w.isAccepted = true) → Q C D)
    (h : judgeAll judge obligations A = .ok (v, B)) : Q A B := by
  induction obligations generalizing A with
  | nil =>
      cases h
      exact refl _
  | cons o rest ih =>
      rcases judgeAll_cons_eq_ok h with
        ⟨path, reason, s, t, rfl, -, rfl⟩ | ⟨path, s, t, C, rfl, hrun, hrest⟩ |
        ⟨path, s, t, w, rfl, hrun, hw, rfl⟩
      · exact refl B
      · have hC := (hkeeps path s t List.mem_cons_self A _ C hA hrun).wellFormed hA
        refine trans A C B (hQ path s t A _ C List.mem_cons_self hA hrun fun _ => rfl)
          (ih ?_ hC ?_ hrest)
        · exact fun p s' t' hmem => hkeeps p s' t' (List.mem_cons_of_mem _ hmem)
        · exact fun p s' t' D w E hmem => hQ p s' t' D w E (List.mem_cons_of_mem _ hmem)
      · refine hQ path s t A w B List.mem_cons_self hA hrun fun hv => ?_
        rw [isAccepted_under, hw] at hv
        cases hv

theorem judgeAll_grows
    (hkeeps : ∀ path s t, .fits path s t ∈ obligations → Keeps judge s t) (hA : A.WellFormed)
    (h : judgeAll judge obligations A = .ok (v, B)) : A.Grows B := by
  apply judgeAll_chain Assumptions.Grows.refl (fun _ _ _ => Assumptions.Grows.trans) hkeeps hA ?_ h
  intro path s t C w D hmem hC hrun _
  exact hkeeps path s t hmem C w D hC hrun

theorem judgeAll_accepted
    (hkeeps : ∀ path s t, .fits path s t ∈ obligations → Keeps judge s t) (hA : A.WellFormed)
    (h : judgeAll judge obligations A = .ok (.accepted, B)) :
    ∀ o ∈ obligations, ∃ path s t C D, o = .fits path s t ∧ C.WellFormed ∧ A.Grows C ∧
      D.Grows B ∧ judge s t C = .ok (.accepted, D) := by
  induction obligations generalizing A with
  | nil => simp
  | cons o rest ih =>
      have hrest : ∀ p s t, .fits p s t ∈ rest → Keeps judge s t :=
        fun p s t hmem => hkeeps p s t (List.mem_cons_of_mem o hmem)
      rcases judgeAll_cons_eq_ok h with
        ⟨path, reason, s, t, -, hv, -⟩ | ⟨path, s, t, C, rfl, hrun, hothers⟩ |
        ⟨path, s, t, w, -, -, hw, hv⟩
      · cases hv
      · have hAC := hkeeps path s t List.mem_cons_self A _ C hA hrun
        have hC := hAC.wellFormed hA
        intro o ho
        rcases List.mem_cons.mp ho with rfl | ho
        · exact ⟨path, s, t, A, C, rfl, hA, .refl A, judgeAll_grows hrest hC hothers, hrun⟩
        · obtain ⟨p, s', t', D, E, rfl, hD, hCD, hEB, hrun'⟩ := ih hrest hC hothers o ho
          exact ⟨p, s', t', D, E, rfl, hD, hAC.trans hCD, hEB, hrun'⟩
      · rw [← isAccepted_under path, ← hv] at hw
        cases hw

theorem judgeAll_rejected
    (hkeeps : ∀ path s t, .fits path s t ∈ obligations → Keeps judge s t) (hA : A.WellFormed)
    (h : judgeAll judge obligations A = .ok (v, B)) (hv : v.isAccepted = false) :
    (∃ path reason s t, .unmet path reason s t ∈ obligations ∧
      v = .rejected path reason (some s) (some t) []) ∨
    ∃ path s t w C D, .fits path s t ∈ obligations ∧ C.WellFormed ∧ A.Grows C ∧
      judge s t C = .ok (w, D) ∧ w.isAccepted = false ∧ v = w.under path := by
  induction obligations generalizing A with
  | nil =>
      cases h
      cases hv
  | cons o rest ih =>
      rcases judgeAll_cons_eq_ok h with
        ⟨path, reason, s, t, rfl, hv, -⟩ | ⟨path, s, t, C, rfl, hrun, hothers⟩ |
        ⟨path, s, t, w, rfl, hrun, hw, hv⟩
      · exact Or.inl ⟨path, reason, s, t, List.mem_cons_self, hv⟩
      · have hAC := hkeeps path s t List.mem_cons_self A _ C hA hrun
        rcases ih (fun p s' t' hmem => hkeeps p s' t' (List.mem_cons_of_mem _ hmem))
            (hAC.wellFormed hA) hothers with
          ⟨p, reason, s', t', hmem, hv⟩ | ⟨p, s', t', w, D, E, hmem, hD, hCD, hrest⟩
        · exact Or.inl ⟨p, reason, s', t', List.mem_cons_of_mem _ hmem, hv⟩
        · exact Or.inr ⟨p, s', t', w, D, E, List.mem_cons_of_mem _ hmem, hD, hAC.trans hCD, hrest⟩
      · exact Or.inr ⟨path, s, t, w, A, B, List.mem_cons_self, hA, .refl A, hrun, hw, hv⟩

theorem judgeAll_error {fault : Fault}
    (hkeeps : ∀ path s t, .fits path s t ∈ obligations → Keeps judge s t) (hA : A.WellFormed)
    (h : judgeAll judge obligations A = .error fault) :
    .fault fault ∈ obligations ∨
    ∃ path s t C, .fits path s t ∈ obligations ∧ C.WellFormed ∧ A.Grows C ∧
      judge s t C = .error fault := by
  induction obligations generalizing A with
  | nil => cases h
  | cons o rest ih =>
      cases o with
      | fault fault' =>
          cases h
          exact Or.inl List.mem_cons_self
      | unmet path reason s t => cases h
      | fits path s t =>
          rw [judgeAll] at h
          split at h
          · rename_i hrun
            cases h
            exact Or.inr ⟨path, s, t, A, List.mem_cons_self, hA, .refl A, hrun⟩
          · rename_i C hrun
            have hAC := hkeeps path s t List.mem_cons_self A _ C hA hrun
            rcases ih (fun p s' t' hmem => hkeeps p s' t' (List.mem_cons_of_mem _ hmem))
                (hAC.wellFormed hA) h with hmem | ⟨p, s', t', D, hmem, hD, hCD, hrun'⟩
            · exact Or.inl (List.mem_cons_of_mem _ hmem)
            · exact Or.inr
                ⟨p, s', t', D, List.mem_cons_of_mem _ hmem, hD, hAC.trans hCD, hrun'⟩
          · cases h

end All

section Members

variable {judge : Judge} {s t : Ty} {members : List Ty} {A B : Assumptions} {v : Verdict}

/-- Trying members ends with one that fits, or with a refusal of each of them from the assumptions
of the start, to which the search has then returned. -/
theorem judgeSome_eq_ok {causes : List Verdict} (hkeeps : ∀ m ∈ members, Keeps judge s m)
    (hA : A.WellFormed) (h : judgeSome judge s t A members causes A = .ok (v, B)) :
    (v = .accepted ∧ ∃ m ∈ members, judge s m A = .ok (.accepted, B)) ∨
    (B = A ∧ ∃ verdicts, v = noMember s t (causes ++ verdicts) ∧
      List.Forall₂ (fun m w => w.isAccepted = false ∧ ∃ C, judge s m A = .ok (w, C))
        members verdicts) := by
  induction members generalizing causes with
  | nil =>
      cases h
      exact Or.inr ⟨rfl, [], by simp, .nil⟩
  | cons m rest ih =>
      rw [judgeSome] at h
      split at h
      · cases h
      · rename_i C hrun
        cases h
        exact Or.inl ⟨rfl, m, List.mem_cons_self, hrun⟩
      · rename_i w C hw hrun
        have hAC := hkeeps m List.mem_cons_self A w C hA hrun
        -- the next member starts from the assumptions that this one started from
        rw [hAC.rollback hA] at h
        rcases ih (fun m' hm' => hkeeps m' (List.mem_cons_of_mem m hm')) h with
          ⟨hv, m', hm', hrun'⟩ | ⟨hB, verdicts, hv, hall⟩
        · exact Or.inl ⟨hv, m', List.mem_cons_of_mem m hm', hrun'⟩
        · refine Or.inr ⟨hB, w :: verdicts, ?_, .cons ⟨isAccepted_of_ne hw, C, hrun⟩ hall⟩
          rw [hv, List.append_assoc, List.singleton_append]

theorem judgeSome_error {causes : List Verdict} {fault : Fault}
    (hkeeps : ∀ m ∈ members, Keeps judge s m) (hA : A.WellFormed)
    (h : judgeSome judge s t A members causes A = .error fault) :
    ∃ m ∈ members, judge s m A = .error fault := by
  induction members generalizing causes with
  | nil => cases h
  | cons m rest ih =>
      rw [judgeSome] at h
      split at h
      · rename_i hrun
        cases h
        exact ⟨m, List.mem_cons_self, hrun⟩
      · cases h
      · rename_i w C _ hrun
        rw [(hkeeps m List.mem_cons_self A w C hA hrun).rollback hA] at h
        obtain ⟨m', hm', hrun'⟩ := ih (fun m' hm' => hkeeps m' (List.mem_cons_of_mem m hm')) h
        exact ⟨m', List.mem_cons_of_mem m hm', hrun'⟩

end Members

section Named

variable {d : Declarations} {judge : Judge} {s t : Ty} {A B : Assumptions} {v : Verdict}

/-- A pair with a name holds by assumption, or what the names stand for is judged while the pair is
assumed; after a refusal the assumptions are rolled back. -/
theorem judgeNamed_eq_ok (h : judgeNamed d judge s t A = .ok (v, B)) :
    (A.holds s t = true ∧ v = .accepted ∧ B = A) ∨
    (A.holds s t = false ∧ ∃ s' t' C, d.resolve s = .ok s' ∧ d.resolve t = .ok t' ∧
      judge s' t' ((s, t) :: A) = .ok (v, C) ∧
      B = if v.isAccepted then C else C.rollback A) := by
  unfold judgeNamed at h
  split at h
  · rename_i hholds
    cases h
    exact Or.inl ⟨hholds, rfl, rfl⟩
  · rename_i hholds
    rw [Bool.not_eq_true] at hholds
    refine Or.inr ⟨hholds, ?_⟩
    split at h
    · cases h
    · cases h
    · rename_i s' t' hs' ht'
      split at h
      · cases h
      · rename_i C hrun
        cases h
        exact ⟨s', t', B, hs', ht', hrun, rfl⟩
      · rename_i w C hw hrun
        cases h
        refine ⟨s', t', C, hs', ht', hrun, ?_⟩
        rw [isAccepted_of_ne hw, if_neg Bool.false_ne_true]

theorem judgeNamed_error {fault : Fault} (h : judgeNamed d judge s t A = .error fault) :
    d.resolve s = .error fault ∨ d.resolve t = .error fault ∨
    (A.holds s t = false ∧ ∃ s' t', d.resolve s = .ok s' ∧ d.resolve t = .ok t' ∧
      judge s' t' ((s, t) :: A) = .error fault) := by
  unfold judgeNamed at h
  split at h
  · cases h
  · rename_i hholds
    rw [Bool.not_eq_true] at hholds
    split at h
    · rename_i hs
      cases h
      exact Or.inl hs
    · rename_i ht _
      cases h
      exact Or.inr (Or.inl ht)
    · rename_i s' t' hs' ht'
      split at h
      · rename_i hrun
        cases h
        exact Or.inr (Or.inr ⟨hholds, s', t', hs', ht', hrun⟩)
      · cases h
      · cases h

theorem judgeNamed_grows (hs : s.WellFormed) (ht : t.WellFormed)
    (hkeeps : ∀ s' t', d.resolve s = .ok s' → d.resolve t = .ok t' → Keeps judge s' t')
    (hA : A.WellFormed) (h : judgeNamed d judge s t A = .ok (v, B)) : A.Grows B := by
  rcases judgeNamed_eq_ok h with ⟨-, -, rfl⟩ | ⟨hholds, s', t', C, hs', ht', hrun, rfl⟩
  · exact .refl B
  · have hcons := Assumptions.grows_cons hs ht hholds
    have hgrows := hcons.trans (hkeeps s' t' hs' ht' _ v C (hcons.wellFormed hA) hrun)
    split
    · exact hgrows
    · rw [hgrows.rollback hA]
      exact .refl A

end Named

section Requirements

variable {judge : Judge} {s t : Ty} {requirement : Requirement} {A B : Assumptions} {v : Verdict}

theorem judgeRequirement_met {R : Ty → Ty → Prop}
    (hkeeps : ∀ a b, requirement.Asks s a b → Keeps judge a b) (hA : A.WellFormed)
    (h : judgeRequirement judge s t A requirement = .ok (.accepted, B))
    (hR : ∀ a b C D, requirement.Asks s a b → C.WellFormed → A.Grows C → D.Grows B →
      judge a b C = .ok (.accepted, D) → R a b) :
    requirement.Met R s := by
  cases requirement with
  | all obligations =>
      intro o ho
      obtain ⟨path, a, b, C, D, rfl, hC, hAC, hDB, hrun⟩ :=
        judgeAll_accepted (fun path a b hmem => hkeeps a b ⟨path, hmem⟩) hA h o ho
      exact hR a b C D ⟨path, ho⟩ hC hAC hDB hrun
  | someMember members =>
      have hmembers : ∀ m ∈ members, Keeps judge s m := fun m hm => hkeeps s m ⟨rfl, hm⟩
      rcases judgeSome_eq_ok hmembers hA h with ⟨-, m, hm, hrun⟩ | ⟨-, verdicts, hv, -⟩
      · exact ⟨m, hm, hR s m A B ⟨rfl, hm⟩ hA (.refl A) (.refl B) hrun⟩
      · cases hv

theorem judgeRequirement_chain {Q : Assumptions → Assumptions → Prop} (refl : ∀ C, Q C C)
    (trans : ∀ C D E, Q C D → Q D E → Q C E)
    (hkeeps : ∀ a b, requirement.Asks s a b → Keeps judge a b) (hA : A.WellFormed)
    (hQ : ∀ a b C w D, requirement.Asks s a b → C.WellFormed → judge a b C = .ok (w, D) →
      (v.isAccepted = true → w.isAccepted = true) → Q C D)
    (h : judgeRequirement judge s t A requirement = .ok (v, B)) : Q A B := by
  cases requirement with
  | all obligations =>
      exact judgeAll_chain refl trans (fun path a b hmem => hkeeps a b ⟨path, hmem⟩) hA
        (fun path a b C w D hmem => hQ a b C w D ⟨path, hmem⟩) h
  | someMember members =>
      rcases judgeSome_eq_ok (fun m hm => hkeeps s m ⟨rfl, hm⟩) hA h with
        ⟨-, m, hm, hrun⟩ | ⟨rfl, -⟩
      · exact hQ s m A _ B ⟨rfl, hm⟩ hA hrun fun _ => rfl
      · exact refl B

theorem judgeRequirement_grows (hkeeps : ∀ a b, requirement.Asks s a b → Keeps judge a b)
    (hA : A.WellFormed) (h : judgeRequirement judge s t A requirement = .ok (v, B)) :
    A.Grows B := by
  apply judgeRequirement_chain Assumptions.Grows.refl (fun _ _ _ => Assumptions.Grows.trans)
    hkeeps hA ?_ h
  intro a b C w D hasks hC hrun _
  exact hkeeps a b hasks C w D hC hrun

theorem judgeRequirement_refuted {R : Ty → Ty → Prop}
    (hkeeps : ∀ a b, requirement.Asks s a b → Keeps judge a b) (hA : A.WellFormed)
    (h : judgeRequirement judge s t A requirement = .ok (v, B)) (hv : v.isAccepted = false)
    (hR : ∀ a b C w D, requirement.Asks s a b → C.WellFormed → judge a b C = .ok (w, D) →
      w.isAccepted = false → ¬ R a b) :
    requirement.Refuted R s := by
  cases requirement with
  | all obligations =>
      rcases judgeAll_rejected (fun path a b hmem => hkeeps a b ⟨path, hmem⟩) hA h hv with
        ⟨path, reason, a, b, hmem, -⟩ | ⟨path, a, b, w, C, D, hmem, hC, -, hrun, hw, -⟩
      · exact ⟨_, hmem, trivial⟩
      · exact ⟨_, hmem, hR a b C w D ⟨path, hmem⟩ hC hrun hw⟩
  | someMember members =>
      have hmembers : ∀ m ∈ members, Keeps judge s m := fun m hm => hkeeps s m ⟨rfl, hm⟩
      rcases judgeSome_eq_ok hmembers hA h with ⟨rfl, -⟩ | ⟨-, verdicts, -, hall⟩
      · cases hv
      · intro m hm
        obtain ⟨w, -, hw, C, hrun⟩ := exists_of_mem_forall₂ hall.flip hm
        exact hR s m A w C ⟨rfl, hm⟩ hA hrun hw

theorem judgeRequirement_error {fault : Fault}
    (hkeeps : ∀ a b, requirement.Asks s a b → Keeps judge a b) (hA : A.WellFormed)
    (h : judgeRequirement judge s t A requirement = .error fault) :
    (∃ obligations, requirement = .all obligations ∧ .fault fault ∈ obligations) ∨
    ∃ a b C, requirement.Asks s a b ∧ C.WellFormed ∧ A.Grows C ∧ judge a b C = .error fault := by
  cases requirement with
  | all obligations =>
      rcases judgeAll_error (fun path a b hmem => hkeeps a b ⟨path, hmem⟩) hA h with
        hmem | ⟨path, a, b, C, hmem, hC, hAC, hrun⟩
      · exact Or.inl ⟨obligations, rfl, hmem⟩
      · exact Or.inr ⟨a, b, C, ⟨path, hmem⟩, hC, hAC, hrun⟩
  | someMember members =>
      obtain ⟨m, hm, hrun⟩ := judgeSome_error (fun m hm => hkeeps s m ⟨rfl, hm⟩) hA h
      exact Or.inr ⟨s, m, A, ⟨rfl, hm⟩, hA, .refl A, hrun⟩

end Requirements

section Step

variable {d : Declarations} {s t : Ty}

theorem judgeStep_cases (rules : Rules) (d : Declarations) (judge : Judge) (s t : Ty)
    (A : Assumptions) :
    (∃ x v, (x = s ∨ x = t) ∧ x.foreign? = some v ∧
      judgeStep rules d judge s t A = .error (.notType v.kindName)) ∨
    (s.foreign? = none ∧ t.foreign? = none ∧
      ((s.isNamed = true ∨ t.isNamed = true) ∧
          judgeStep rules d judge s t A = judgeNamed d judge s t A ∨
        s.isNamed = false ∧ t.isNamed = false ∧
          judgeStep rules d judge s t A =
            judgeRequirement judge s.expanded t.expanded A (rules s.expanded t.expanded))) := by
  unfold judgeStep
  cases hs : s.foreign? with
  | some v => exact Or.inl ⟨s, v, Or.inl rfl, hs, rfl⟩
  | none =>
      cases ht : t.foreign? with
      | some v => exact Or.inl ⟨t, v, Or.inr rfl, ht, rfl⟩
      | none =>
          refine Or.inr ⟨rfl, rfl, ?_⟩
          by_cases hnamed : s.isNamed = true ∨ t.isNamed = true
          · simp [hnamed]
          · rw [not_or, Bool.not_eq_true, Bool.not_eq_true] at hnamed
            simp [hnamed.1, hnamed.2]

/-- A run that ends with a verdict judged neither side foreign, and then went on to what the names
stand for or to what the rules require. -/
theorem search_succ_eq_ok {rules : Rules} {depth : Nat} {A B : Assumptions} {v : Verdict}
    (h : search rules d (depth + 1) s t A = .ok (v, B)) :
    s.foreign? = none ∧ t.foreign? = none ∧
    ((s.isNamed = true ∨ t.isNamed = true) ∧
        judgeNamed d (search rules d depth) s t A = .ok (v, B) ∨
      s.isNamed = false ∧ t.isNamed = false ∧
        judgeRequirement (search rules d depth) s.expanded t.expanded A
          (rules s.expanded t.expanded) = .ok (v, B)) := by
  rw [search] at h
  rcases judgeStep_cases rules d (search rules d depth) s t A with
    ⟨x, y, -, -, hstep⟩ | ⟨hs, ht, ⟨hnamed, hstep⟩ | ⟨hsn, htn, hstep⟩⟩
  · rw [hstep] at h
    cases h
  · exact ⟨hs, ht, Or.inl ⟨hnamed, hstep ▸ h⟩⟩
  · exact ⟨hs, ht, Or.inr ⟨hsn, htn, hstep ▸ h⟩⟩

theorem Inward.search_keeps {rules : Rules} (hrules : Inward rules) (hd : d.WellFormed)
    (depth : Nat) (hs : s.WellFormed) (ht : t.WellFormed) : Keeps (search rules d depth) s t := by
  induction depth generalizing s t with
  | zero =>
      intro A v B _ h
      cases h
  | succ depth ih =>
      intro A v B hA h
      rcases search_succ_eq_ok h with ⟨-, -, ⟨-, hrun⟩ | ⟨-, -, hrun⟩⟩
      · exact judgeNamed_grows hs ht
          (fun s' t' hs' ht' => ih (hd.resolve hs hs') (hd.resolve ht ht')) hA hrun
      · refine judgeRequirement_grows (fun a b hasks => ?_) hA hrun
        obtain ⟨ha, hb⟩ := hrules.wellFormed hs.expanded ht.expanded hasks
        exact ih ha hb

theorem Inward.search_keeps_of_asks {rules : Rules} (hrules : Inward rules) (hd : d.WellFormed)
    (depth : Nat) (hs : s.WellFormed) (ht : t.WellFormed) {a b : Ty}
    (h : (rules s.expanded t.expanded).Asks s.expanded a b) : Keeps (search rules d depth) a b := by
  obtain ⟨ha, hb⟩ := hrules.wellFormed hs.expanded ht.expanded h
  exact hrules.search_keeps hd depth ha hb

theorem search_keeps {policy : Policy} (hd : d.WellFormed) (depth : Nat) (hs : s.WellFormed)
    (ht : t.WellFormed) : Keeps (search (rule policy) d depth) s t :=
  (inward_rule policy).search_keeps hd depth hs ht

theorem search_keeps_of_asks {policy : Policy} (hd : d.WellFormed) (depth : Nat)
    (hs : s.WellFormed) (ht : t.WellFormed) {a b : Ty}
    (h : (rule policy s.expanded t.expanded).Asks s.expanded a b) :
    Keeps (search (rule policy) d depth) a b :=
  (inward_rule policy).search_keeps_of_asks hd depth hs ht h

end Step

end StructuralTypes.Assignability
