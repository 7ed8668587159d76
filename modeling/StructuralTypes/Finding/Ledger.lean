import StructuralTypes.Finding.Wording

namespace StructuralTypes

/-- What is reported to a ledger, with the name of what it is about. -/
inductive Report where
  | verdict (verdict : Verdict) (subject : Option String)
  | drift (drift : Drift) (subject : Option String)
  | narrowing (record : NarrowingRecord) (subject : Option String)

namespace Report

def findings : Report → Except Fault (List Finding)
  | .verdict v subject => v.findings subject
  | .drift d subject => .ok (d.findings subject)
  | .narrowing r subject => r.findings subject

end Report

/-- Findings in the order in which they were reported, up to a limit, and a count of those that
there was no room for. -/
structure Ledger where
  /-- How many findings are kept at most; zero stands for no limit. -/
  limit : Int := 0
  findings : List Finding := []
  dropped : Nat := 0

structure Summary where
  total : Nat
  errors : Nat
  warnings : Nat
  dropped : Nat
  byCode : List (String × Nat)

namespace Ledger

/-- How many of some new findings there is room for. -/
def room (l : Ledger) (count : Nat) : Nat :=
  if l.limit = 0 then count else min count (l.limit - l.findings.length).toNat

def kept (l : Ledger) (new : List Finding) : List Finding :=
  new.take (l.room new.length)

/-- Adds new findings as far as there is room. -/
def record (l : Ledger) (new : List Finding) : Ledger :=
  { l with
    findings := l.findings ++ l.kept new
    dropped := l.dropped + (new.length - (l.kept new).length) }

/-- The ledger after a report, and the findings that it took in. A report that cannot be worded is
answered by the fault. -/
def report (l : Ledger) (r : Report) : Ledger × Except Fault (List Finding) :=
  match r.findings with
  | .ok new => (l.record new, .ok (l.kept new))
  | .error fault => (l, .error fault)

def recordLog (l : Ledger) (new : List Finding) : List Log.Entry :=
  let kept := l.kept new
  let excess := new.length - kept.length
  let warning : List Log.Entry :=
    if excess = 0 then []
    else
      [⟨.warning, .ledger, .ok ("Diagnostic limit " ++ Number.integerText l.limit ++
        " reached, dropping " ++ Nat.repr excess)⟩]
  warning ++ kept.map fun f => ⟨.debug, .ledger, .ok ("Recorded " ++ f.text)⟩

def clear (l : Ledger) : Ledger :=
  { limit := l.limit }

def count (l : Ledger) : Nat :=
  l.findings.length

def errorCount (l : Ledger) : Nat :=
  l.findings.countP Finding.isError

def hasErrors (l : Ledger) : Bool :=
  l.findings.any Finding.isError

/-- How many findings there are of each code that occurs, in ascending order of the codes' names. -/
def byCode (l : Ledger) : List (String × Nat) :=
  let codes := l.findings.map fun f => f.code.name
  (Names.ofList codes).toList.map fun name => (name, codes.count name)

def summary (l : Ledger) : Summary :=
  let errors := l.findings.countP Finding.isError
  { total := l.findings.length
    errors
    warnings := l.findings.length - errors
    dropped := l.dropped
    byCode := l.byCode }

/-- The lines of a finding: its text, and its notes indented. -/
def lines (f : Finding) : List String :=
  f.text :: f.notes.map ("  note: " ++ ·)

/-- All findings, one to a line, with their notes below them. -/
def text (l : Ledger) : String :=
  Text.joined "\n" (l.findings.flatMap lines)

end Ledger

end StructuralTypes
