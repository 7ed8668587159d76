import Mathlib
import StructuralTypes.Finding.Ledger

namespace StructuralTypes.Ledger

section Room

variable {l : Ledger}

/-- As much of a list as a limit allows; zero stands for no limit. -/
def upTo (limit : Nat) (entries : List Finding) : List Finding :=
  if limit = 0 then entries else entries.take limit

theorem upTo_nil (limit : Nat) : upTo limit [] = [] := by
  simp [upTo]

theorem length_kept_le (l : Ledger) (new : List Finding) : (l.kept new).length ≤ new.length :=
  List.length_take_le' _ _

/-- Where a ledger holds all that its limit allows of a list, it keeps of new findings what the
limit allows of the list with these behind it. -/
theorem upTo_append {limit : Nat} {entries : List Finding} (hlimit : l.limit = limit)
    (hfindings : l.findings = upTo limit entries) (new : List Finding) :
    upTo limit (entries ++ new) = upTo limit entries ++ l.kept new := by
  unfold kept room
  rw [hlimit, hfindings]
  unfold upTo
  by_cases hzero : limit = 0
  · simp [hzero]
  · have hne : ¬ (limit : Int) = 0 := by omega
    rw [if_neg hzero, if_neg hzero, if_neg hne, List.take_append, List.append_cancel_left_eq]
    -- what is kept is bounded by the new findings themselves, which changes nothing
    rw [min_comm new.length, ← List.take_take, List.take_length, List.length_take]
    congr 1
    omega

end Room

section Runs

/-- What is done to a ledger. -/
inductive Action where
  | report (report : Report)
  | clear

def Action.report? : Action → Option Report
  | .report r => some r
  | .clear => none

def perform (l : Ledger) : Action → Ledger
  | .report r => (l.report r).1
  | .clear => l.clear

def performAll (l : Ledger) (actions : List Action) : Ledger :=
  actions.foldl perform l

/-- The findings of a report; there are none when it cannot be worded. -/
def entries (r : Report) : List Finding :=
  match r.findings with
  | .ok new => new
  | .error _ => []

/-- The reports behind the last clearing. -/
def sinceClear (actions : List Action) : List Report :=
  (actions.rtakeWhile fun a => a.report?.isSome).filterMap Action.report?

/-- The findings of all reports behind the last clearing, in the order of the reports. -/
def reported (actions : List Action) : List Finding :=
  (sinceClear actions).flatMap entries

theorem reported_clear (actions : List Action) : reported (actions ++ [.clear]) = [] := by
  simp [reported, sinceClear, Action.report?]

theorem reported_report (actions : List Action) (r : Report) :
    reported (actions ++ [.report r]) = reported actions ++ entries r := by
  simp [reported, sinceClear, Action.report?]

/-- A ledger accounts for a list: it holds as much of it as the limit allows and has counted the
rest. -/
structure Accounts (limit : Nat) (l : Ledger) (entries : List Finding) : Prop where
  limit_eq : l.limit = limit
  findings_eq : l.findings = upTo limit entries
  dropped_add : l.dropped + l.findings.length = entries.length

variable {limit : Nat} {l : Ledger} {list : List Finding}

theorem accounts_new (limit : Nat) : Accounts limit { limit } [] where
  limit_eq := rfl
  findings_eq := (upTo_nil limit).symm
  dropped_add := rfl

theorem Accounts.clear (h : Accounts limit l list) : Accounts limit l.clear [] where
  limit_eq := h.limit_eq
  findings_eq := (upTo_nil limit).symm
  dropped_add := rfl

theorem Accounts.record (h : Accounts limit l list) (new : List Finding) :
    Accounts limit (l.record new) (list ++ new) where
  limit_eq := h.limit_eq
  findings_eq := by
    rw [upTo_append h.limit_eq h.findings_eq, ← h.findings_eq]
    rfl
  dropped_add := by
    have hdropped := h.dropped_add
    have hkept := l.length_kept_le new
    simp only [Ledger.record, List.length_append]
    omega

theorem Accounts.report (h : Accounts limit l list) (r : Report) :
    Accounts limit (l.report r).1 (list ++ entries r) := by
  unfold Ledger.report entries
  cases r.findings with
  | ok new => exact h.record new
  | error fault =>
      rw [List.append_nil]
      exact h

theorem accounts_performAll (limit : Nat) (actions : List Action) :
    Accounts limit (performAll { limit } actions) (reported actions) := by
  induction actions using List.reverseRecOn with
  | nil => exact accounts_new limit
  | append_singleton actions action ih =>
      rw [performAll, List.foldl_append]
      cases action with
      | report r =>
          rw [reported_report]
          exact ih.report r
      | clear =>
          rw [reported_clear]
          exact ih.clear

end Runs

section Summaries

variable (l : Ledger)

theorem sum_byCode : (l.byCode.map Prod.snd).sum = l.count := by
  let codes := l.findings.map fun f => f.code.name
  have hperm : (Names.ofList codes).toList.Perm codes.dedup := by
    rw [List.perm_ext_iff_of_nodup (Names.nodup _) codes.nodup_dedup]
    simp [← Names.mem_iff]
  calc (l.byCode.map Prod.snd).sum
      = ((Names.ofList codes).toList.map fun name => codes.count name).sum := by
        simp [byCode, codes, Function.comp_def]
    _ = (codes.dedup.map fun name => codes.count name).sum := (hperm.map _).sum_eq
    _ = codes.length := List.sum_map_count_dedup_eq_length codes
    _ = l.count := by simp [codes, count]

theorem errors_add_warnings : l.summary.errors + l.summary.warnings = l.summary.total :=
  Nat.add_sub_cancel' List.countP_le_length

theorem hasErrors_iff : l.hasErrors = true ↔ 0 < l.errorCount := by
  rw [hasErrors, errorCount, List.any_eq_true, List.countP_pos_iff]

end Summaries

/-- The limit is met within the last report. One that has no wording is passed over, and clearing
makes room again. -/
example :
    let drift : Report := .drift (.ofLists ["b", "a"] ["c"]) none
    let wordless : Report :=
      .verdict (.rejected [] .typeMismatch (some (.foreign (.int 1))) none []) none
    let l := performAll { limit := 4 } [.report drift, .report wordless, .report drift]
    (l.count, l.dropped) = (4, 2) ∧ (performAll l [.clear, .report drift]).count = 3 := by
  decide

end StructuralTypes.Ledger
