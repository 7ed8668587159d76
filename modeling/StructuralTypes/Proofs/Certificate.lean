import StructuralTypes.Proofs.Exactness

/-!
What a refusal says is true. The path of a verdict that refuses a source leads into both types at
once, and where it ends the reason of the verdict can be seen in the two types. When no member of a
union fits, the verdicts on the members are of the same kind.
-/

namespace StructuralTypes

namespace Verdict

mutual

theorem under_nil : (v : Verdict) → v.under [] = v
  | .accepted => rfl
  | .rejected path reason source target causes => by
    rw [under, underEach_nil causes, List.nil_append]

theorem underEach_nil : (verdicts : List Verdict) → underEach [] verdicts = verdicts
  | [] => rfl
  | v :: rest => by rw [underEach, under_nil v, underEach_nil rest]

end

mutual

theorem under_under (above inner : Path) :
    (v : Verdict) → (v.under inner).under above = v.under (above ++ inner)
  | .accepted => rfl
  | .rejected path reason source target causes => by
    rw [under, under, under, underEach_underEach above inner causes, List.append_assoc]

theorem underEach_underEach (above inner : Path) : (verdicts : List Verdict) →
    underEach above (underEach inner verdicts) = underEach (above ++ inner) verdicts
  | [] => rfl
  | v :: rest => by
    rw [underEach, underEach, underEach, under_under above inner v,
      underEach_underEach above inner rest]

end

theorem underEach_eq_map (above : Path) (verdicts : List Verdict) :
    underEach above verdicts = verdicts.map (under above) := by
  induction verdicts with
  | nil => rfl
  | cons v rest ih => rw [underEach, ih, List.map_cons]

theorem path_under {v : Verdict} (h : v.isAccepted = false) (above : Path) :
    (v.under above).path = above ++ v.path := by
  cases v with
  | accepted => cases h
  | rejected path reason source target causes => rw [under, Verdict.path, Verdict.path]

end Verdict

namespace Assignability

variable {setting : Setting}

/-- A walk into two types at once. Names are resolved, mapped types expanded and members of unions
entered on the way without a step. -/
inductive Walk (setting : Setting) : Ty → Ty → Path → Ty → Ty → Prop
  | stop (s t : Ty) : Walk setting s t [] s t
  | resolved {s t s' t' a b : Ty} {path : Path} (hs' : setting.declarations.resolve s = .ok s')
      (ht' : setting.declarations.resolve t = .ok t') (h : Walk setting s' t' path a b) :
      Walk setting s t path a b
  | expanded {s t a b : Ty} {path : Path} (h : Walk setting s.expanded t.expanded path a b) :
      Walk setting s t path a b
  | targetMember {s m a b : Ty} {members : List Ty} {path : Path} (hm : m ∈ members)
      (h : Walk setting s m path a b) : Walk setting s (.union members) path a b
  | down {s t s' t' a b : Ty} {path rest : Path} (hleads : Leads setting.policy s t path s' t')
      (h : Walk setting s' t' rest a b) : Walk setting s t (path ++ rest) a b

theorem Walk.trans {s t a b a' b' : Ty} {path path' : Path} (h : Walk setting s t path a b)
    (h' : Walk setting a b path' a' b') : Walk setting s t (path ++ path') a' b' := by
  induction h with
  | stop => exact h'
  | resolved hs' ht' _ ih => exact .resolved hs' ht' (ih h')
  | expanded _ ih => exact .expanded (ih h')
  | targetMember hm _ ih => exact .targetMember hm (ih h')
  | down hleads _ ih =>
      rw [List.append_assoc]
      exact .down hleads (ih h')

/-- A verdict that refuses a source for a reason that is true: its path is a walk to where the
reason can be seen, or to a union of which no member fits, with such a verdict for each member. -/
inductive Certificate (setting : Setting) : Ty → Ty → Verdict → Prop
  | failure {s t a b x y : Ty} {path last : Path} {reason : Reason}
      (hnot : ¬ Assignable setting s t) (walk : Walk setting s t path a b)
      (h : Failure setting.policy a b last reason x y) :
      Certificate setting s t (.rejected (path ++ last) reason (some x) (some y) [])
  | noMember {s t a : Ty} {members : List Ty} {causes : List Verdict} {path : Path}
      (hnot : ¬ Assignable setting s t) (walk : Walk setting s t path a (.union members))
      (hmembers : members ≠ []) (hlength : causes.length = members.length)
      (hcauses : ∀ (i : Nat) m c, members[i]? = some m → causes[i]? = some c →
        Certificate setting a m c) :
      Certificate setting s t ((noMember a (.union members) causes).under path)

theorem Certificate.under {s t a b : Ty} {v : Verdict} {path : Path}
    (h : Certificate setting a b v) (walk : Walk setting s t path a b)
    (hnot : ¬ Assignable setting s t) : Certificate setting s t (v.under path) := by
  cases h with
  | failure _ walk' hfailure =>
      have hcertificate := Certificate.failure hnot (walk.trans walk') hfailure
      rw [List.append_assoc] at hcertificate
      exact hcertificate
  | noMember _ walk' hmembers hlength hcauses =>
      rw [Verdict.under_under]
      exact .noMember hnot (walk.trans walk') hmembers hlength hcauses

/-- The path of a refusal is a walk to a failure in both types at once. -/
theorem Certificate.exists_walk {s t : Ty} {v : Verdict} (h : Certificate setting s t v) :
    ∃ path a b last reason x y, Walk setting s t path a b ∧
      Failure setting.policy a b last reason x y ∧ v.path = path ++ last := by
  induction h with
  | failure _ walk hfailure => exact ⟨_, _, _, _, _, _, _, walk, hfailure, rfl⟩
  | @noMember s t a members causes path _ walk hmembers hlength hcauses ih =>
      cases members with
      | nil => exact absurd rfl hmembers
      | cons m rest =>
          cases causes with
          | nil => cases hlength
          | cons c others =>
              obtain ⟨path', a', b', last, reason, x, y, walk', hfailure, hpath⟩ :=
                ih 0 m c rfl rfl
              refine ⟨path ++ path', a', b', last, reason, x, y,
                walk.trans (.targetMember List.mem_cons_self walk'), hfailure, ?_⟩
              rw [Verdict.path_under rfl, List.append_assoc, ← hpath]
              rfl

theorem certificate_of_search (hd : setting.declarations.WellFormed) {depth : Nat} {s t : Ty}
    {A B : Assumptions} {v : Verdict} (hs : s.WellFormed) (ht : t.WellFormed) (hA : A.WellFormed)
    (h : search (rule setting.policy) setting.declarations depth s t A = .ok (v, B))
    (hv : v.isAccepted = false) : Certificate setting s t v := by
  induction depth generalizing s t A B v with
  | zero => cases h
  | succ depth ih =>
      have hnot := not_assignable_of_search_rejected hd hs ht hA h hv
      have hkeeps : ∀ a b, (rule setting.policy s.expanded t.expanded).Asks s.expanded a b →
          Keeps (search (rule setting.policy) setting.declarations depth) a b :=
        fun a b hasks => search_keeps_of_asks hd depth hs ht hasks
      have hwf : ∀ a b, (rule setting.policy s.expanded t.expanded).Asks s.expanded a b →
          a.WellFormed ∧ b.WellFormed :=
        fun a b hasks => wellFormed_of_asks hs.expanded ht.expanded hasks
      rcases search_succ_eq_ok h with ⟨-, -, ⟨-, hrun⟩ | ⟨-, -, hrun⟩⟩
      · rcases judgeNamed_eq_ok hrun with ⟨-, rfl, -⟩ | ⟨hholds, s', t', C, hs', ht', hrun, -⟩
        · cases hv
        · have hcons := (Assumptions.grows_cons hs ht hholds).wellFormed hA
          have hcertificate := ih (hd.resolve hs hs') (hd.resolve ht ht') hcons hrun hv
          rw [← Verdict.under_nil v]
          exact hcertificate.under (.resolved hs' ht' (.stop s' t')) hnot
      · cases hrule : rule setting.policy s.expanded t.expanded with
        | all obligations =>
            rw [hrule] at hrun hkeeps hwf
            rcases judgeAll_rejected (fun path a b hmem => hkeeps a b ⟨path, hmem⟩) hA hrun hv with
              ⟨path, reason, x, y, hmem, rfl⟩ | ⟨path, a, b, w, C, D, hmem, hC, -, hrun', hw, rfl⟩
            · have hfailure := (rule_arises hrule _ hmem).failure
              exact .failure hnot (.expanded (.stop _ _)) hfailure
            · have hleads := (rule_arises hrule _ hmem).leads
              obtain ⟨ha, hb⟩ := hwf a b ⟨path, hmem⟩
              rw [← List.append_nil path]
              exact (ih ha hb hC hrun' hw).under (.expanded (.down hleads (.stop a b))) hnot
        | someMember members =>
            rw [hrule] at hrun hkeeps hwf
            rcases judgeSome_eq_ok (fun m hm => hkeeps _ m ⟨rfl, hm⟩) hA hrun with
              ⟨rfl, -⟩ | ⟨-, causes, rfl, hall⟩
            · cases hv
            · have hunion := rule_someMember hrule
              have hmembers : members ≠ [] := (hunion ▸ ht.expanded).wellMade.1
              rw [List.nil_append, hunion, ← Verdict.under_nil (noMember _ _ _)]
              refine .noMember hnot (.expanded (hunion ▸ .stop _ _)) hmembers hall.length_eq.symm ?_
              intro i m c hm hc
              obtain ⟨hi, rfl⟩ := List.getElem?_eq_some_iff.mp hm
              obtain ⟨hi', rfl⟩ := List.getElem?_eq_some_iff.mp hc
              obtain ⟨hcause, C, hrun⟩ := hall.get hi hi'
              obtain ⟨ha, hb⟩ := hwf _ _ ⟨rfl, List.getElem_mem hi⟩
              exact ih ha hb hA hrun hcause

/-- A verdict that refuses a source is a certificate for it. -/
theorem check_certificate {s t : Ty} {v : Verdict} (hd : setting.declarations.WellFormed)
    (hs : s.WellFormed) (ht : t.WellFormed) (h : setting.check s t = .ok v)
    (hv : v.isAccepted = false) :
    Certificate setting s t v ∧
      ∃ path a b last reason x y, Walk setting s t path a b ∧
        Failure setting.policy a b last reason x y ∧ v.path = path ++ last := by
  obtain ⟨B, hrun⟩ := search_of_check_eq_ok h
  have hcertificate := certificate_of_search hd hs ht (by simp [Assumptions.WellFormed]) hrun hv
  exact ⟨hcertificate, hcertificate.exists_walk⟩

theorem check_certificate_crossed :
    ∃ v, crossedSetting.check crossedSource (crossedTarget "Q") = .ok v ∧
      v.path = [.field "f", .field "z"] ∧
      Certificate crossedSetting crossedSource (crossedTarget "Q") v := by
  have hrejected : ∃ v, crossedSetting.check crossedSource (crossedTarget "Q") = .ok v ∧
      v.isAccepted = false ∧ v.path = [.field "f", .field "z"] := ⟨_, rfl, rfl, rfl⟩
  obtain ⟨v, hv, hfalse, hpath⟩ := hrejected
  have hcertificate := check_certificate (by decide) (by decide) (by decide) hv hfalse
  exact ⟨v, hv, hpath, hcertificate.1⟩

end Assignability

end StructuralTypes
