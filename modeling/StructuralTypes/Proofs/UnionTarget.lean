import StructuralTypes.Proofs.Termination

namespace StructuralTypes.Assignability

variable {setting : Setting}

theorem assignable_iff_fits {s t s' t' : Ty} (hfs : s.foreign? = none) (hft : t.foreign? = none)
    (hs' : setting.declarations.resolve s = .ok s') (ht' : setting.declarations.resolve t = .ok t')
    (hfs' : s'.foreign? = none) (hft' : t'.foreign? = none) :
    Assignable setting s t ↔
      Fits setting.policy (Assignable setting) s'.expanded t'.expanded := by
  have hsn := Declarations.isNamed_of_resolve hs'
  have htn := Declarations.isNamed_of_resolve ht'
  have hresolved : Assignable setting s' t' ↔
      Fits setting.policy (Assignable setting) s'.expanded t'.expanded := by
    rw [assignable_iff_oneStep]
    constructor
    · intro h
      cases h with
      | named _ _ hnamed => simp [hsn, htn] at hnamed
      | structural _ _ _ _ hfits => exact hfits
    · exact .structural hfs' hft' hsn htn
  rw [← hresolved]
  by_cases hnamed : s.isNamed = true ∨ t.isNamed = true
  · rw [assignable_iff_oneStep]
    constructor
    · intro h
      cases h with
      | named _ _ _ hs'' ht'' h =>
          cases hs'.symm.trans hs''
          cases ht'.symm.trans ht''
          exact h
      | structural _ _ hsn' htn' => simp [hsn', htn'] at hnamed
    · exact .named hfs hft hnamed hs' ht'
  · rw [not_or, Bool.not_eq_true, Bool.not_eq_true] at hnamed
    rw [Declarations.resolve_of_not_named hnamed.1] at hs'
    rw [Declarations.resolve_of_not_named hnamed.2] at ht'
    cases hs'
    cases ht'
    rfl

theorem resolves_of_check_eq_ok {s t : Ty} {v : Verdict} (h : setting.check s t = .ok v) :
    s.foreign? = none ∧ t.foreign? = none ∧
      ∃ s' t', setting.declarations.resolve s = .ok s' ∧ setting.declarations.resolve t = .ok t' ∧
        s'.foreign? = none ∧ t'.foreign? = none := by
  obtain ⟨B, hrun⟩ := search_of_check_eq_ok h
  generalize depthBound setting.declarations s t = depth at hrun
  cases depth with
  | zero => cases hrun
  | succ depth =>
      obtain ⟨hfs, hft, ⟨-, hrun⟩ | ⟨hsn, htn, -⟩⟩ := search_succ_eq_ok hrun
      · rcases judgeNamed_eq_ok hrun with ⟨hholds, -, -⟩ | ⟨-, s', t', C, hs', ht', hrun, -⟩
        · cases hholds
        · cases depth with
          | zero => cases hrun
          | succ depth =>
              obtain ⟨hfs', hft', -⟩ := search_succ_eq_ok hrun
              exact ⟨hfs, hft, s', t', hs', ht', hfs', hft'⟩
      · exact ⟨hfs, hft, s, t, Declarations.resolve_of_not_named hsn,
          Declarations.resolve_of_not_named htn, hfs, hft⟩

section Members

variable {s s' : Ty} {members : List Ty}

theorem beq_union_eq_false (h : ∀ ms, s ≠ .union ms) : (s == .union members) = false := by
  rw [← Bool.not_eq_true]
  intro hbeq
  cases Ty.alike_of_beq hbeq with
  | union => exact h _ rfl

theorem fits_union_iff {policy : Policy} {R : Ty → Ty → Prop} (hunion : ∀ ms, s ≠ .union ms)
    (hunknown : s ≠ .primitive "unknown") :
    Fits policy R s (.union members) ↔
      (s = .primitive "any" ∨ s = .primitive "never") ∨ ∃ m ∈ members, R s m := by
  constructor
  · intro h
    cases h with
    | equal hbeq =>
        rw [beq_union_eq_false hunion] at hbeq
        cases hbeq
    | always halways => exact Or.inl (by simpa [FitsAlways] using halways)
    | kind _ _ hkind =>
        cases hkind with
        | unionSource => exact absurd rfl (hunion _)
        | unionTarget _ hm hfits => exact Or.inr ⟨_, hm, hfits⟩
  · rintro (htop | ⟨m, hm, hfits⟩)
    · exact .always (by simpa [FitsAlways] using htop)
    · exact .kind (by simp) hunknown (.unionTarget hunion hm hfits)

theorem expanded_ne_union (h : ∀ ms, s ≠ .union ms) (ms : List Ty) : s.expanded ≠ .union ms := by
  cases s with
  | mapped entries => simp [Ty.expanded]
  | _ => exact h ms

theorem expanded_ne_primitive {name : String} (h : s ≠ .primitive name) :
    s.expanded ≠ .primitive name := by
  cases s with
  | mapped entries => simp [Ty.expanded]
  | _ => exact h

theorem assignable_union_iff (hmembers : members ≠ [])
    (hs' : setting.declarations.resolve s = .ok s') (hunion : ∀ ms, s' ≠ .union ms)
    (hunknown : s' ≠ .primitive "unknown") {v : Verdict}
    (h : setting.check s (.union members) = .ok v)
    (hall : ∀ m ∈ members, ∃ w, setting.check s m = .ok w) :
    Assignable setting s (.union members) ↔ ∃ m ∈ members, Assignable setting s m := by
  obtain ⟨hfs, -, s'', -, hs'', -, hfs', -⟩ := resolves_of_check_eq_ok h
  cases hs'.symm.trans hs''
  have hexpanded : (Ty.union members).expanded = .union members := rfl
  have hsn : s'.expanded.isNamed = false := by
    rw [Ty.isNamed_expanded, Declarations.isNamed_of_resolve hs']
  have hfs'' : s'.expanded.foreign? = none := by rw [Ty.foreign?_expanded, hfs']
  -- the source is compared with a member as it is, or resolved and expanded, to the same effect
  have hmember : ∀ m ∈ members, (Assignable setting s'.expanded m ↔ Assignable setting s m) ∧
      (s'.expanded = .primitive "any" ∨ s'.expanded = .primitive "never" →
        Assignable setting s m) := by
    intro m hm
    obtain ⟨w, hw⟩ := hall m hm
    obtain ⟨-, hfm, -, m', -, hm', -, hfm'⟩ := resolves_of_check_eq_ok hw
    rw [assignable_iff_fits hfs hfm hs' hm' hfs' hfm',
      assignable_iff_fits hfs'' hfm (Declarations.resolve_of_not_named hsn) hm' hfs'' hfm',
      Ty.expanded_expanded]
    exact ⟨Iff.rfl, fun htop => .always (Or.inr (Or.inr htop))⟩
  rw [assignable_iff_fits (t := .union members) hfs rfl hs' rfl hfs' rfl, hexpanded,
    fits_union_iff (expanded_ne_union hunion) (expanded_ne_primitive hunknown)]
  constructor
  · rintro (htop | ⟨m, hm, hassignable⟩)
    · obtain ⟨m, hm⟩ := List.exists_mem_of_ne_nil members hmembers
      exact ⟨m, hm, (hmember m hm).2 htop⟩
    · exact ⟨m, hm, (hmember m hm).1.mp hassignable⟩
  · rintro ⟨m, hm, hassignable⟩
    exact Or.inr ⟨m, hm, (hmember m hm).1.mpr hassignable⟩

theorem rule_union (policy : Policy) (hunion : ∀ ms, s ≠ .union ms)
    (hunknown : s ≠ .primitive "unknown") :
    rule policy s (.union members) = .none ∨
      rule policy s (.union members) = .someMember members := by
  have hnever : isPrimitive "unknown" s = false := by
    rw [← Bool.not_eq_true, isPrimitive_iff]
    exact hunknown
  unfold rule structuralRule
  rw [beq_union_eq_false hunion, if_neg Bool.false_ne_true]
  split
  · exact Or.inl rfl
  · right
    rw [hnever, if_neg (by simp [isPrimitive])]
    cases s with
    | union ms => exact absurd rfl (hunion ms)
    | _ => rfl

/-- A verdict reached with nothing assumed. -/
def JudgedAlone (setting : Setting) (s t : Ty) (v : Verdict) : Prop :=
  ∃ depth B, search (rule setting.policy) setting.declarations depth s t [] = .ok (v, B)

theorem judgedAlone_rightUnique (s : Ty) : Relator.RightUnique (JudgedAlone setting s) := by
  rintro m w w' ⟨depth, B, hw⟩ ⟨depth', B', hw'⟩
  exact congrArg Prod.fst (search_ok_unique hw hw')

theorem check_union_rejected (hd : setting.declarations.WellFormed) (hs : s.WellFormed)
    (hu : (Ty.union members).WellFormed) (hsn : s.isNamed = false)
    (hmapped : ∀ entries, s ≠ .mapped entries) (hunion : ∀ ms, s ≠ .union ms)
    (hunknown : s ≠ .primitive "unknown") {v : Verdict} {verdicts : List Verdict}
    (h : setting.check s (.union members) = .ok v) (hv : v.isAccepted = false)
    (hall : List.Forall₂ (fun m w => setting.check s m = .ok w) members verdicts) :
    v = noMember s (.union members) verdicts := by
  obtain ⟨B, hrun⟩ := search_of_check_eq_ok h
  generalize depthBound setting.declarations s (.union members) = depth at hrun
  cases depth with
  | zero => cases hrun
  | succ depth =>
      obtain ⟨-, -, ⟨hnamed, -⟩ | ⟨-, -, hrun⟩⟩ := search_succ_eq_ok hrun
      · rw [hsn] at hnamed
        rcases hnamed with hnamed | hnamed <;> cases hnamed
      · rw [Ty.expanded_eq_self hmapped, Ty.expanded_eq_self (by simp)] at hrun
        have hkeeps : ∀ m ∈ members,
            Keeps (search (rule setting.policy) setting.declarations depth) s m :=
          fun m hm => search_keeps hd depth hs (hu.part (by simpa [Ty.parts] using hm))
        rcases rule_union setting.policy hunion hunknown with hrule | hrule
        · rw [hrule] at hrun
          cases hrun
          cases hv
        · rw [hrule] at hrun
          rcases judgeSome_eq_ok hkeeps (by simp [Assumptions.WellFormed]) hrun with
            ⟨rfl, -⟩ | ⟨-, causes, rfl, hcauses⟩
          · cases hv
          · have hcauses' : List.Forall₂ (JudgedAlone setting s) members causes :=
              hcauses.imp fun m w hw => ⟨depth, hw.2⟩
            have hall' : List.Forall₂ (JudgedAlone setting s) members verdicts :=
              hall.imp fun m w hw => ⟨_, search_of_check_eq_ok hw⟩
            rw [List.nil_append, (judgedAlone_rightUnique s).forall₂ hcauses' hall']

/-- A union target decomposes into separate judgements of its members. -/
theorem check_union_target (hd : setting.declarations.WellFormed) (hs : s.WellFormed)
    (hu : (Ty.union members).WellFormed) (hs' : setting.declarations.resolve s = .ok s')
    (hunion : ∀ ms, s' ≠ .union ms) (hunknown : s' ≠ .primitive "unknown") {v : Verdict}
    {verdicts : List Verdict} (h : setting.check s (.union members) = .ok v)
    (hall : List.Forall₂ (fun m w => setting.check s m = .ok w) members verdicts) :
    (v.isAccepted = true ↔ ∃ w ∈ verdicts, w.isAccepted = true) ∧
    (s.isNamed = false → (∀ entries, s ≠ .mapped entries) → v.isAccepted = false →
      ∃ first rest, verdicts = first :: rest ∧
        v = .rejected first.path .noMemberMatches (some s) (some (.union members)) verdicts) := by
  have hwf : ∀ m ∈ members, m.WellFormed := fun m hm => hu.part (by simpa [Ty.parts] using hm)
  constructor
  · rw [isAccepted_iff_assignable hd hs hu h,
      assignable_union_iff hu.wellMade.1 hs' hunion hunknown h]
    · constructor
      · rintro ⟨m, hm, hassignable⟩
        obtain ⟨w, hw, hcheck⟩ := exists_of_mem_forall₂ hall.flip hm
        exact ⟨w, hw, (isAccepted_iff_assignable hd hs (hwf m hm) hcheck).mpr hassignable⟩
      · rintro ⟨w, hw, haccepted⟩
        obtain ⟨m, hm, hcheck⟩ := exists_of_mem_forall₂ hall hw
        exact ⟨m, hm, (isAccepted_iff_assignable hd hs (hwf m hm) hcheck).mp haccepted⟩
    · intro m hm
      obtain ⟨w, -, hcheck⟩ := exists_of_mem_forall₂ hall.flip hm
      exact ⟨w, hcheck⟩
  · intro hsn hmapped hv
    rw [Declarations.resolve_of_not_named hsn] at hs'
    cases hs'
    have hrejected := check_union_rejected hd hs hu hsn hmapped hunion hunknown h hv hall
    cases hall with
    | nil => exact absurd rfl hu.wellMade.1
    | cons hfirst hrest => exact ⟨_, _, rfl, hrejected⟩

theorem check_union_target_crossed :
    ∃ v first second, crossedSetting.check crossedSource (crossedTarget "Q") = .ok v ∧
      v = .rejected first.path .noMemberMatches (some crossedSource) (some (crossedTarget "Q"))
        [first, second] ∧
      first.path = [.field "f", .field "z"] ∧
      second.path = [.field "g", .field "back", .field "z"] := by
  have hall : ∃ verdicts first second, List.Forall₂
      (fun m w => crossedSetting.check crossedSource m = .ok w) (crossedMembers "Q") verdicts ∧
      verdicts = [first, second] ∧ first.path = [.field "f", .field "z"] ∧
      second.path = [.field "g", .field "back", .field "z"] :=
    ⟨_, _, _, .cons rfl (.cons rfl .nil), rfl, rfl, rfl⟩
  have hrejected : ∃ v, crossedSetting.check crossedSource (crossedTarget "Q") = .ok v ∧
      v.isAccepted = false := ⟨_, rfl, rfl⟩
  obtain ⟨verdicts, first, second, hall, rfl, hfirst, hsecond⟩ := hall
  obtain ⟨v, hv, hfalse⟩ := hrejected
  have htarget := check_union_target (by decide) (by decide) (by decide) rfl
    (by simp [crossedSource]) (by simp [crossedSource]) hv hall
  obtain ⟨_, _, heq, hverdict⟩ := htarget.2 rfl (by simp [crossedSource]) hfalse
  cases heq
  exact ⟨v, first, second, hv, hverdict, hfirst, hsecond⟩

end Members

end StructuralTypes.Assignability
