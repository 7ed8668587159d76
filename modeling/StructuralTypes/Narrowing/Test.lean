import StructuralTypes.Ty.Text

namespace StructuralTypes

/-- A test at a branch: a tag field is compared with a literal, or a field is asked for. -/
inductive Test where
  | tag (field : String) (value : Literal)
  | present (field : String)

namespace Test

/-- The test that is meant by a tag field with its value, or by a field to be present; exactly one
of the two ways must be chosen. -/
def ofParts (field : Option String) (value : Value) (present : Option String) :
    Except Fault Test :=
  match field, value, present with
  | some _, .scalar .null, _ => .error (.badTest .valueMissing)
  | none, .scalar .null, none => .error (.badTest .noStrategy)
  | none, .scalar .null, some name => .ok (.present name)
  | none, _, _ => .error (.badTest .fieldMissing)
  | some _, _, some _ => .error (.badTest .tagAndPresence)
  | some name, value, none =>
    match Literal.ofValue? value with
    | some l => .ok (.tag name l)
    | none => .error (.badTest (.notLiteral value))

def strategyName : Test → String
  | .tag _ _ => "TAG"
  | .present _ => "PRESENCE"

def text : Test → String
  | .tag field value => field ++ " === " ++ value.render
  | .present field => "'" ++ field ++ "' in value"

end Test

end StructuralTypes
