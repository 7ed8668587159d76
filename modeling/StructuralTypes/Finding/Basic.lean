import StructuralTypes.Verdict
import StructuralTypes.Narrowing.Selection

namespace StructuralTypes

inductive Code where
  | ofReason (reason : Reason)
  | ofFailure (failure : Failure)
  | keySetDrift
  deriving DecidableEq

inductive Severity where
  | error
  | warning
  deriving DecidableEq

namespace Severity

def name : Severity → String
  | .error => "error"
  | .warning => "warning"

end Severity

namespace Code

def name : Code → String
  | .ofReason reason => reason.name
  | .ofFailure .ambiguous => "AMBIGUOUS_NARROWING"
  | .ofFailure failure => failure.name
  | .keySetDrift => "KEY_SET_DRIFT"

/-- Only the advice to narrow by an available tag is a mere warning. -/
def severity : Code → Severity
  | .ofFailure .tagAvailable => .warning
  | _ => .error

end Code

/-- What was found out about types, worded for a reader, with the place it is about. -/
structure Finding where
  code : Code
  message : String
  path : Path := []
  subject : Option String := none
  notes : List String := []

namespace Finding

def severity (f : Finding) : Severity :=
  f.code.severity

def isError (f : Finding) : Bool :=
  f.severity == .error

/-- Where the finding is: the path from the subject. -/
def location (f : Finding) : String :=
  match f.subject, f.path with
  | none, path => path.text
  | some subject, [] => subject
  | some subject, path => subject ++ path.text

def text (f : Finding) : String :=
  f.severity.name ++ "[" ++ f.code.name ++ "] " ++ f.location ++ ": " ++ f.message

end Finding

end StructuralTypes
