import StructuralTypes.Finding.Basic
import StructuralTypes.Companion

namespace StructuralTypes

def textOrUnknown : Option Ty → Except Fault String
  | none => .ok "?"
  | some (.foreign .null) => .ok "?"
  | some t => t.render

def domainOrUnknown : Option Ty → Except Fault String
  | none => .ok "?"
  | some (.foreign .null) => .ok "?"
  | some t => t.renderDomain

/-- The name of the field that a path ends in, if it has one, or else the text of the path. -/
def missingName (path : Path) : String :=
  match path.getLast? with
  | some (.field name) => if name = "" then path.text else name
  | _ => path.text

def lengthRange (elements : List (Slot Ty)) : String :=
  let low := Ty.requiredCount elements
  let high := elements.length
  if low = high then Nat.repr high else Nat.repr low ++ " to " ++ Nat.repr high

/-- The wording of a length that does not fit, for the types and their texts. -/
def lengthWording (source target : Option Ty) (sourceText targetText : String) : String :=
  match source, target with
  | some (.array _ _), _ =>
    "Array '" ++ sourceText ++ "' has no fixed length and cannot fill tuple '" ++ targetText ++ "'"
  | some (.tuple elements), some (.tuple elements') =>
    "Tuple '" ++ sourceText ++ "' has " ++ Nat.repr elements.length ++ " element(s) but '" ++
      targetText ++ "' takes " ++ lengthRange elements'
  | _, _ => "Length of '" ++ sourceText ++ "' does not match '" ++ targetText ++ "'"

namespace Reason

/-- The wording of a reason at a path, for the two types that did not line up. -/
def describe (reason : Reason) (path : Path) (source target : Option Ty) :
    Except Fault String := do
  let sourceText ← textOrUnknown source
  let targetText ← textOrUnknown target
  match reason with
  | .missingField =>
    return "Field '" ++ missingName path ++ "' of type '" ++ targetText ++
      "' is required but missing in '" ++ sourceText ++ "'"
  | .typeMismatch =>
    return "Type '" ++ sourceText ++ "' is not assignable to type '" ++ targetText ++ "'"
  | .readonlyViolation =>
    return "'" ++ path.text ++
      "' is readonly in the source and cannot be assigned to a mutable '" ++ targetText ++ "'"
  | .lengthMismatch => return lengthWording source target sourceText targetText
  | .noMemberMatches =>
    return "Type '" ++ sourceText ++ "' is not assignable to any member of '" ++ targetText ++ "'"
  | .optionalityMismatch =>
    return "'" ++ path.text ++ "' is optional in the source but required in the target"
  | .keyMismatch =>
    let sourceKeys ← domainOrUnknown source
    let targetKeys ← domainOrUnknown target
    return "Index signature keys [" ++ sourceKeys ++ "] do not cover [" ++ targetKeys ++ "]"

end Reason

namespace Verdict

def target? : Verdict → Option Ty
  | .accepted => none
  | .rejected _ _ _ target _ => target

def describe : Verdict → Except Fault String
  | .accepted => .error .noReason
  | .rejected path reason source target _ => reason.describe path source target

/-- One line for each cause, which names the member that it is about. -/
def memberNotes : List Ty → List Verdict → Except Fault (List String)
  | _, [] => .ok []
  | members, cause :: causes => do
    let member ← textOrUnknown (members.head?.or cause.target?)
    let description ← cause.describe
    let rest ← memberNotes members.tail causes
    return ("member '" ++ member ++ "': " ++ description ++ " at " ++ cause.path.text) :: rest

def membersOf : Option Ty → List Ty
  | some (.union members) => members
  | _ => []

/-- The notes on a verdict: why each member of a union was refused. -/
def notes : Verdict → Except Fault (List String)
  | .rejected _ .noMemberMatches _ target causes => memberNotes (membersOf target) causes
  | _ => .ok []

/-- The finding about a verdict, when it refuses. -/
def findings (verdict : Verdict) (subject : Option String) : Except Fault (List Finding) :=
  match verdict with
  | .accepted => .ok []
  | .rejected path reason .. => do
    let notes ← verdict.notes
    let message ← verdict.describe
    return [{ code := .ofReason reason, message, path, subject, notes }]

end Verdict

namespace Drift

def companionName : Option String → String
  | none => "companion"
  | some "" => "companion"
  | some subject => "companion of '" ++ subject ++ "'"

/-- One finding for each name that drifted: first the missing ones, then the extra ones. -/
def findings (drift : Drift) (subject : Option String) : List Finding :=
  let companion := companionName subject
  drift.missing.toList.map (fun key =>
    { code := .keySetDrift, message := "Key '" ++ key ++ "' is missing from the " ++ companion,
      path := [.field key], subject }) ++
  drift.extra.toList.map (fun key =>
    { code := .keySetDrift,
      message := "Key '" ++ key ++ "' in the " ++ companion ++ " has no counterpart in the source",
      path := [.field key], subject })

end Drift

/-- A record of narrowing: the outcome, and what was narrowed by which test, as far as known. -/
structure NarrowingRecord where
  selection : Selection
  test : Option Test
  union : Option Ty

namespace NarrowingRecord

def testText (r : NarrowingRecord) : String :=
  match r.test with
  | some test => test.text
  | none => "?"

def tagField (r : NarrowingRecord) : String :=
  match r.test with
  | some (.tag field _) => field
  | some (.present _) => Scalar.null.plain
  | none => "?"

def describe (r : NarrowingRecord) : Except Fault String := do
  let union ← textOrUnknown r.union
  match r.selection with
  | .chosen _ _ => .error .noFailure
  | .failed failure candidates =>
    let places := Text.joined ", " (candidates.map Nat.repr)
    match failure with
    | .ambiguous =>
      return "Narrowing '" ++ union ++ "' on " ++ r.testText ++ " is ambiguous between members " ++
        places
    | .noMatch => return "No member of '" ++ union ++ "' satisfies " ++ r.testText
    | .missingTag =>
      return "Members " ++ places ++ " of '" ++ union ++ "' carry no literal tag '" ++
        r.tagField ++ "'"
    | .tagAvailable =>
      return "'" ++ union ++ "' has a literal tag field; narrow by tag instead of " ++ r.testText

def findings (r : NarrowingRecord) (subject : Option String) : Except Fault (List Finding) :=
  match r.selection with
  | .chosen _ _ => .ok []
  | .failed failure _ =>
    r.describe.map fun message => [{ code := .ofFailure failure, message, subject }]

end NarrowingRecord

end StructuralTypes
