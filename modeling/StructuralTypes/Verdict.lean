import StructuralTypes.Ty.Basic

namespace StructuralTypes

inductive Step where
  | field (name : String)
  | index (domain : String)
  | element
  | position (index : Int)
  deriving DecidableEq

abbrev Path := List Step

namespace Step

def text : Step → String
  | .field name => "." ++ name
  | .index domain => "[" ++ domain ++ "]"
  | .element => "[]"
  | .position i => "[" ++ Number.integerText i ++ "]"

end Step

/-- The text of a path, which names the root when there are no steps. -/
def Path.text (path : Path) : String :=
  match path with
  | [] => "<root>"
  | steps => String.join (steps.map Step.text)

inductive Reason where
  | missingField
  | typeMismatch
  | readonlyViolation
  | lengthMismatch
  | noMemberMatches
  | optionalityMismatch
  | keyMismatch
  deriving DecidableEq

namespace Reason

def name : Reason → String
  | .missingField => "MISSING_FIELD"
  | .typeMismatch => "FIELD_TYPE_MISMATCH"
  | .readonlyViolation => "READONLY_VIOLATION"
  | .lengthMismatch => "LENGTH_MISMATCH"
  | .noMemberMatches => "NO_UNION_MEMBER_MATCHES"
  | .optionalityMismatch => "OPTIONALITY_MISMATCH"
  | .keyMismatch => "INDEX_KEY_MISMATCH"

end Reason

/-- A source fits a target, or it does not, and then the verdict says where, why, and which two
types did not line up there. When no member of a union fits, it keeps one verdict per member. -/
inductive Verdict where
  | accepted
  | rejected (path : Path) (reason : Reason) (source target : Option Ty) (causes : List Verdict)

namespace Verdict

def isAccepted : Verdict → Bool
  | .accepted => true
  | .rejected .. => false

/-- Where a verdict found the failure. -/
def path : Verdict → Path
  | .accepted => []
  | .rejected path .. => path

mutual

/-- The verdict seen from above, with a path in front of every path in it. -/
def under (above : Path) : Verdict → Verdict
  | .accepted => .accepted
  | .rejected path reason source target causes =>
    .rejected (above ++ path) reason source target (underEach above causes)
termination_by structural v => v

def underEach (above : Path) : List Verdict → List Verdict
  | [] => []
  | v :: rest => under above v :: underEach above rest
termination_by structural vs => vs

end

def text : Verdict → String
  | .accepted => "Compatible"
  | .rejected path reason .. => "Incompatible(" ++ path.text ++ ", " ++ reason.name ++ ")"

end Verdict

end StructuralTypes
