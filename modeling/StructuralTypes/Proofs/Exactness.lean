import StructuralTypes.Proofs.Runs

/-!
The search decides assignability. A run that accepts leaves assumptions of which each is supported
by what was accepted along the run, so that together they make up a closed relation. A run that
rejects has found a pair outside every closed relation, whatever it assumed on the way.
-/

namespace StructuralTypes.Assignability

section Soundness

variable {setting : Setting} {rules : Rules} {final : Assumptions}

/-- Rules that look inside the types and whose requirements are met only by types that fit. -/
structure Sound (policy : Policy) (rules : Rules) : Prop where
  inward : Inward rules
  fits : ∀ (R : Ty → Ty → Prop) (s t : Ty), (rules s t).Met R s → Fits policy R s t

theorem sound_rule (policy : Policy) : Sound policy (rule policy) :=
  ⟨inward_rule policy, fun _ s t => (rule_settles s t).holds⟩

/-- Accepted by a run whose assumptions are all among the final ones. -/
def AcceptedWithin (rules : Rules) (d : Declarations) (final : Assumptions) (s t : Ty) : Prop :=
  s.WellFormed ∧ t.WellFormed ∧ ∃ depth A B, Assumptions.WellFormed A ∧
    search rules d depth s t A = .ok (.accepted, B) ∧ B ⊆ final

/-- Equal to a pair that was accepted. -/
def AcceptedUpTo (rules : Rules) (d : Declarations) (final : Assumptions) (s t : Ty) : Prop :=
  s.WellFormed ∧ t.WellFormed ∧ ∃ a b, a == s ∧ b == t ∧ AcceptedWithin rules d final a b

theorem AcceptedWithin.upTo {s t : Ty} (h : AcceptedWithin rules setting.declarations final s t) :
    AcceptedUpTo rules setting.declarations final s t :=
  ⟨h.1, h.2.1, s, t, Ty.beq_refl h.1, Ty.beq_refl h.2.1, h⟩

theorem respects_acceptedUpTo : Respects (AcceptedUpTo rules setting.declarations final) := by
  rintro s t ⟨-, -, a, b, has, hbt, h⟩ s' t' hs' ht' hss htt
  exact ⟨hs', ht', a, b, Ty.beq_trans has hss, Ty.beq_trans hbt htt, h⟩

/-- What a run adds to the assumptions, with each new pair supported by what was accepted. -/
def Supports (rules : Rules) (setting : Setting) (final A B : Assumptions) : Prop :=
  A ⊆ B ∧ (B ⊆ final →
    ∀ p ∈ B, p ∈ A ∨ OneStep setting (AcceptedWithin rules setting.declarations final) p.1 p.2)

theorem Supports.refl (A : Assumptions) : Supports rules setting final A A :=
  ⟨List.Subset.refl A, fun _ _ hp => Or.inl hp⟩

theorem Supports.trans (A B C : Assumptions) (hAB : Supports rules setting final A B)
    (hBC : Supports rules setting final B C) : Supports rules setting final A C := by
  refine ⟨List.Subset.trans hAB.1 hBC.1, fun hC p hp => ?_⟩
  rcases hBC.2 hC p hp with hp | hp
  · exact hAB.2 (List.Subset.trans hBC.1 hC) p hp
  · exact Or.inr hp

theorem search_supports (hrules : Inward rules) (hd : setting.declarations.WellFormed)
    {depth : Nat} {s t : Ty} {A B : Assumptions} (hs : s.WellFormed) (ht : t.WellFormed)
    (hA : A.WellFormed) (h : search rules setting.declarations depth s t A = .ok (.accepted, B)) :
    Supports rules setting final A B := by
  induction depth generalizing s t A B with
  | zero => cases h
  | succ depth ih =>
      rcases search_succ_eq_ok h with ⟨hfs, hft, ⟨hnamed, hrun⟩ | ⟨-, -, hrun⟩⟩
      · rcases judgeNamed_eq_ok hrun with ⟨-, -, rfl⟩ | ⟨hholds, s', t', C, hs', ht', hrun, hB⟩
        · exact .refl B
        · rw [Verdict.isAccepted, if_pos rfl] at hB
          subst hB
          have hcons := (Assumptions.grows_cons hs ht hholds).wellFormed hA
          have hwf := hd.resolve hs hs'
          have hwf' := hd.resolve ht ht'
          have hsupports := ih hwf hwf' hcons hrun
          refine ⟨List.Subset.trans (List.subset_cons_self _ A) hsupports.1, fun hB p hp => ?_⟩
          -- the pair at hand is supported by the run on what its names stand for
          rcases hsupports.2 hB p hp with hp | hp
          · rcases List.mem_cons.mp hp with rfl | hp
            · exact Or.inr (.named hfs hft hnamed hs' ht' ⟨hwf, hwf', depth, _, B, hcons, hrun, hB⟩)
            · exact Or.inl hp
          · exact Or.inr hp
      · refine judgeRequirement_chain Supports.refl Supports.trans
          (fun a b hasks => hrules.search_keeps_of_asks hd depth hs ht hasks) hA ?_ hrun
        intro a b C w D hasks hC hrun' hw
        obtain ⟨ha, hb⟩ := hrules.wellFormed hs.expanded ht.expanded hasks
        rw [eq_accepted_of_isAccepted (hw rfl)] at hrun'
        exact ih ha hb hC hrun'

/-- When each final assumption is supported, so is every accepted pair. -/
theorem oneStep_of_acceptedWithin (hrules : Sound setting.policy rules)
    (hd : setting.declarations.WellFormed) (hwf : final.WellFormed)
    (hfinal : ∀ p ∈ final,
      OneStep setting (AcceptedWithin rules setting.declarations final) p.1 p.2)
    {s t : Ty} (h : AcceptedWithin rules setting.declarations final s t) :
    OneStep setting (AcceptedUpTo rules setting.declarations final) s t := by
  obtain ⟨hs, ht, depth, A, B, hA, hrun, hB⟩ := h
  cases depth with
  | zero => cases hrun
  | succ depth =>
      rcases search_succ_eq_ok hrun with ⟨hfs, hft, ⟨hnamed, hrun⟩ | ⟨hsn, htn, hrun⟩⟩
      · rcases judgeNamed_eq_ok hrun with ⟨hholds, -, rfl⟩ | ⟨hholds, s', t', C, hs', ht', hrun, hC⟩
        · -- an assumed pair is only equal to the one at hand, so its support is carried over
          obtain ⟨p, hp, hps, hpt⟩ := Assumptions.holds_iff.mp hholds
          have hstep := (hfinal p (hB hp)).mono fun _ _ h' => h'.upTo
          exact hstep.of_beq hd respects_acceptedUpTo (hwf p (hB hp)).1 hs (hwf p (hB hp)).2 ht
            hps hpt
        · rw [Verdict.isAccepted, if_pos rfl] at hC
          subst hC
          have hcons := (Assumptions.grows_cons hs ht hholds).wellFormed hA
          have haccepted : AcceptedWithin rules setting.declarations final s' t' :=
            ⟨hd.resolve hs hs', hd.resolve ht ht', depth, _, B, hcons, hrun, hB⟩
          exact .named hfs hft hnamed hs' ht' haccepted.upTo
      · refine .structural hfs hft hsn htn (hrules.fits _ _ _ ?_)
        refine judgeRequirement_met
          (fun a b hasks => hrules.inward.search_keeps_of_asks hd depth hs ht hasks) hA hrun ?_
        intro a b C D hasks hC _ hDB hrun'
        obtain ⟨ha, hb⟩ := hrules.inward.wellFormed hs.expanded ht.expanded hasks
        have haccepted : AcceptedWithin rules setting.declarations final a b :=
          ⟨ha, hb, depth, C, D, hC, hrun', List.Subset.trans hDB.subset hB⟩
        exact haccepted.upTo

theorem assignable_of_search_accepted (hrules : Sound setting.policy rules)
    (hd : setting.declarations.WellFormed) {depth : Nat}
    {s t : Ty} {B : Assumptions} (hs : s.WellFormed) (ht : t.WellFormed)
    (h : search rules setting.declarations depth s t [] = .ok (.accepted, B)) :
    Assignable setting s t := by
  have hnil : Assumptions.WellFormed [] := by simp [Assumptions.WellFormed]
  have hwf := (hrules.inward.search_keeps hd depth hs ht [] _ B hnil h).wellFormed hnil
  have hfinal : ∀ p ∈ B, OneStep setting (AcceptedWithin rules setting.declarations B) p.1 p.2 := by
    intro p hp
    rcases (search_supports hrules.inward hd hs ht hnil h).2 (List.Subset.refl B) p hp with hp | hp
    · cases hp
    · exact hp
  have hclosed : Closed setting (AcceptedUpTo rules setting.declarations B) := by
    rintro s' t' ⟨hs', ht', a, b, has, hbt, hab⟩
    have hstep := oneStep_of_acceptedWithin hrules hd hwf hfinal hab
    exact hstep.of_beq hd respects_acceptedUpTo hab.1 hs' hab.2.1 ht' has hbt
  have haccepted : AcceptedWithin rules setting.declarations B s t :=
    ⟨hs, ht, depth, [], B, hnil, h, List.Subset.refl B⟩
  exact hclosed.le_assignable haccepted.upTo

end Soundness

section Completeness

variable {setting : Setting}

/-- A relation whose pairs, where they can be judged at all, are supported by one step. -/
def Tolerant (setting : Setting) (R : Ty → Ty → Prop) : Prop :=
  ∀ s t, R s t → s.foreign? = none → t.foreign? = none →
    (s.isNamed = true ∨ t.isNamed = true → ∀ s' t', setting.declarations.resolve s = .ok s' →
      setting.declarations.resolve t = .ok t' → R s' t') ∧
    (s.isNamed = false → t.isNamed = false → Fits setting.policy R s.expanded t.expanded)

/-- A relation whose pairs, where they can be judged at all, lead through names to pairs of it and
are otherwise among the given ones. -/
def Upheld (d : Declarations) (F R : Ty → Ty → Prop) : Prop :=
  ∀ s t, R s t → s.foreign? = none → t.foreign? = none →
    (s.isNamed = true ∨ t.isNamed = true → ∀ s' t', d.resolve s = .ok s' → d.resolve t = .ok t' →
      R s' t') ∧
    (s.isNamed = false → t.isNamed = false → F s.expanded t.expanded)

theorem Upheld.tolerant {R : Ty → Ty → Prop}
    (h : Upheld setting.declarations (FitsByParts setting.policy R) R) : Tolerant setting R := by
  intro s t hst hfs hft
  obtain ⟨hnamed, hfits⟩ := h s t hst hfs hft
  exact ⟨hnamed, fun hsn htn => (hfits hsn htn).fits⟩

/-- No pair of such a relation is rejected, whatever is assumed, when the rules refute none of the
given pairs. -/
theorem Upheld.not_rejected {d : Declarations} {rules : Rules} {F R : Ty → Ty → Prop}
    (hR : Upheld d F R) (hrules : Inward rules)
    (hF : ∀ s t, (rules s t).Refuted R s → ¬ F s t) (hd : d.WellFormed) {depth : Nat} {s t : Ty}
    {A B : Assumptions} {v : Verdict} (hs : s.WellFormed) (ht : t.WellFormed) (hA : A.WellFormed)
    (h : search rules d depth s t A = .ok (v, B)) (hv : v.isAccepted = false) : ¬ R s t := by
  induction depth generalizing s t A B v with
  | zero => cases h
  | succ depth ih =>
      intro hst
      rcases search_succ_eq_ok h with ⟨hfs, hft, ⟨hnamed, hrun⟩ | ⟨hsn, htn, hrun⟩⟩
      · rcases judgeNamed_eq_ok hrun with ⟨-, rfl, -⟩ | ⟨hholds, s', t', C, hs', ht', hrun, -⟩
        · cases hv
        · have hcons := (Assumptions.grows_cons hs ht hholds).wellFormed hA
          exact ih (hd.resolve hs hs') (hd.resolve ht ht') hcons hrun hv
            ((hR s t hst hfs hft).1 hnamed s' t' hs' ht')
      · have hrefuted := judgeRequirement_refuted
          (fun a b hasks => hrules.search_keeps_of_asks hd depth hs ht hasks) hA hrun hv
          (fun a b C w D hasks hC hrun' hw =>
            ih (hrules.wellFormed hs.expanded ht.expanded hasks).1
              (hrules.wellFormed hs.expanded ht.expanded hasks).2 hC hrun' hw)
        exact hF _ _ hrefuted ((hR s t hst hfs hft).2 hsn htn)

theorem Tolerant.not_rejected {R : Ty → Ty → Prop} (hR : Tolerant setting R)
    (hd : setting.declarations.WellFormed) {depth : Nat} {s t : Ty} {A B : Assumptions}
    {v : Verdict} (hs : s.WellFormed) (ht : t.WellFormed) (hA : A.WellFormed)
    (h : search (rule setting.policy) setting.declarations depth s t A = .ok (v, B))
    (hv : v.isAccepted = false) : ¬ R s t :=
  Upheld.not_rejected (F := Fits setting.policy R) hR (inward_rule setting.policy)
    (fun s t => (rule_settles s t).fails) hd hs ht hA h hv

theorem tolerant_assignable (setting : Setting) : Tolerant setting (Assignable setting) := by
  intro s t h _ _
  cases closed_assignable setting s t h with
  | named _ _ hnamed hs' ht' h' =>
      constructor
      · intro _ s'' t'' hs'' ht''
        cases hs'.symm.trans hs''
        cases ht'.symm.trans ht''
        exact h'
      · intro hsn htn
        simp [hsn, htn] at hnamed
  | structural _ _ hsn htn hfits =>
      constructor
      · intro hnamed
        simp [hsn, htn] at hnamed
      · exact fun _ _ => hfits

theorem not_assignable_of_search_rejected (hd : setting.declarations.WellFormed) {depth : Nat}
    {s t : Ty} {A B : Assumptions} {v : Verdict} (hs : s.WellFormed) (ht : t.WellFormed)
    (hA : A.WellFormed)
    (h : search (rule setting.policy) setting.declarations depth s t A = .ok (v, B))
    (hv : v.isAccepted = false) : ¬ Assignable setting s t :=
  (tolerant_assignable setting).not_rejected hd hs ht hA h hv

end Completeness

section Check

variable {setting : Setting} {s t : Ty} {v : Verdict}

theorem search_of_check_eq_ok (h : setting.check s t = .ok v) :
    ∃ B, search (rule setting.policy) setting.declarations
      (depthBound setting.declarations s t) s t [] = .ok (v, B) := by
  unfold Setting.check verdict at h
  cases hrun : search (rule setting.policy) setting.declarations
      (depthBound setting.declarations s t) s t [] with
  | error fault =>
      rw [hrun] at h
      cases h
  | ok result =>
      rw [hrun] at h
      cases h
      exact ⟨result.2, rfl⟩

theorem isAccepted_iff_assignable (hd : setting.declarations.WellFormed) (hs : s.WellFormed)
    (ht : t.WellFormed) (h : setting.check s t = .ok v) :
    v.isAccepted = true ↔ Assignable setting s t := by
  obtain ⟨B, hrun⟩ := search_of_check_eq_ok h
  cases v with
  | accepted =>
      have hassignable :=
        assignable_of_search_accepted (sound_rule setting.policy) hd hs ht hrun
      exact ⟨fun _ => hassignable, fun _ => rfl⟩
  | rejected path reason source target causes =>
      have hnot := not_assignable_of_search_rejected hd hs ht (by simp [Assumptions.WellFormed])
        hrun rfl
      exact ⟨fun hv => absurd hv Bool.false_ne_true, fun hassignable => absurd hassignable hnot⟩

theorem Tolerant.isAccepted {R : Ty → Ty → Prop} (hR : Tolerant setting R)
    (hd : setting.declarations.WellFormed) (hs : s.WellFormed) (ht : t.WellFormed) (hst : R s t)
    (h : setting.check s t = .ok v) : v.isAccepted = true := by
  obtain ⟨B, hrun⟩ := search_of_check_eq_ok h
  by_contra hv
  rw [Bool.not_eq_true] at hv
  exact hR.not_rejected hd hs ht (by simp [Assumptions.WellFormed]) hrun hv hst

/-- A verdict on a source and a target, which may be one type given twice. -/
def Judged (setting : Setting) (s t : Ty) (v : Verdict) : Prop :=
  setting.check s t = .ok v ∨ s = t ∧ checkSelf s = .ok v

theorem isAccepted_of_checkSelf (h : checkSelf s = .ok v) : v.isAccepted = true := by
  unfold checkSelf at h
  split at h <;> cases h
  rfl

theorem Tolerant.isAccepted_of_judged {R : Ty → Ty → Prop} (hR : Tolerant setting R)
    (hd : setting.declarations.WellFormed) (hs : s.WellFormed) (ht : t.WellFormed) (hst : R s t)
    (h : Judged setting s t v) : v.isAccepted = true := by
  rcases h with h | ⟨-, h⟩
  · exact hR.isAccepted hd hs ht hst h
  · exact isAccepted_of_checkSelf h

/-- A verdict accepts exactly the pairs of the greatest relation that keeps to the rules of one
step. -/
theorem check_exact (hd : setting.declarations.WellFormed) (hs : s.WellFormed)
    (ht : t.WellFormed) (h : setting.check s t = .ok v) :
    IsGreatest {R | Closed setting R} (Assignable setting) ∧
      (v.isAccepted = true ↔ Assignable setting s t) :=
  ⟨isGreatest_assignable setting, isAccepted_iff_assignable hd hs ht h⟩

/-- Two pairs of types declared through each other: "P" would fit "Q" only if "A" fitted "B", and
their fields "z" differ. -/
def crossed : Declarations :=
  .ofList [
    ("A", .object [("x", ⟨.named "P", false, false⟩), ("z", ⟨.number, false, false⟩)] none),
    ("B", .object [("x", ⟨.named "Q", false, false⟩), ("z", ⟨.string, false, false⟩)] none),
    ("P", .object [("back", ⟨.named "A", false, false⟩)] none),
    ("Q", .object [("back", ⟨.named "B", false, false⟩)] none)]

def crossedSource : Ty :=
  .object [("f", ⟨.named "A", false, false⟩), ("g", ⟨.named "P", false, false⟩)] none

/-- Trying the first member assumes that "P" fits "Q" before it fails. -/
def crossedMembers (last : String) : List Ty :=
  [.object [("f", ⟨.named "B", false, false⟩), ("g", ⟨.named "Q", false, false⟩)] none,
    .object [("g", ⟨.named last, false, false⟩)] none]

def crossedTarget (last : String) : Ty :=
  .union (crossedMembers last)

def crossedSetting : Setting :=
  ⟨{}, crossed⟩

theorem check_exact_crossed :
    ¬ Assignable crossedSetting crossedSource (crossedTarget "Q") ∧
      Assignable crossedSetting crossedSource (crossedTarget "P") := by
  have hd : crossedSetting.declarations.WellFormed := by decide
  have hs : crossedSource.WellFormed := by decide
  constructor
  · have hrejected : ∃ v, crossedSetting.check crossedSource (crossedTarget "Q") = .ok v ∧
        v.isAccepted = false := ⟨_, rfl, rfl⟩
    obtain ⟨v, hv, hfalse⟩ := hrejected
    intro hassignable
    rw [(check_exact hd hs (by decide) hv).2.mpr hassignable] at hfalse
    cases hfalse
  · have haccepted : crossedSetting.check crossedSource (crossedTarget "P") = .ok .accepted := rfl
    exact (check_exact hd hs (by decide) haccepted).2.mp rfl

end Check

end StructuralTypes.Assignability
