import StructuralTypes.Names
import StructuralTypes.Ty.Blueprint

namespace StructuralTypes

inductive MappedTable where
  | values
  | readonly
  | optional

/-- What is wrong with a request to narrow a union. -/
inductive TestFault where
  | valueMissing
  | fieldMissing
  | tagAndPresence
  | noStrategy
  | notLiteral (value : Value)

/-- What callers can get wrong when they build types, declarations and requests. That two types do
not fit is never a fault. -/
inductive Fault where
  | emptyUnion
  | duplicateField (name : String)
  | notLiteral (value : Value)
  | notKeyDomain (key : Ty)
  | requiredAfterOptional (position : Nat)
  | keySetDisagrees (table : MappedTable) (keys : Names)
  | notField (value : Scalar)
  | notElement (value : Scalar)
  | notMember (value : Scalar)
  | notMappedValue (key : String) (value : Scalar)
  | notType (kind : String)
  | unbound (name : String)
  | aliasCycle (chain : List String)
  | badTest (fault : TestFault)
  | fieldNotFound (name : String)
  | nameTaken (name : String)
  | noSuchName (name : String)
  | integerTooLarge
  | switchNotBoolean (name : String) (value : Value)
  | notCompanionSource (kind : String)
  | notFlag (key : String) (entry : String)
  | noReason
  | noFailure
  | noAlternative
  | searchTooDeep

namespace MappedTable

def name : MappedTable → String
  | .values => "value_for"
  | .readonly => "readonly_for"
  | .optional => "optional_for"

end MappedTable

def notLiteralMessage (value : Value) : String :=
  "Literal types hold str, int, float or bool values, got " ++ value.kindName

namespace TestFault

def message : TestFault → String
  | .valueMissing => "discriminant_field requires a discriminant_value"
  | .fieldMissing => "discriminant_value given without discriminant_field"
  | .tagAndPresence => "tag-based and presence-based narrowing cannot be combined"
  | .noStrategy => "no narrowing strategy given"
  | .notLiteral value => notLiteralMessage value

end TestFault

namespace Fault

/-- The wording of a fault. A misplaced key type that has a mapped type inside is not shown. -/
def message? : Fault → Option String
  | .emptyUnion => some "Union type must have at least one member"
  | .duplicateField name => some ("Duplicate field '" ++ name ++ "' in object type")
  | .notLiteral value => some (notLiteralMessage value)
  | .notKeyDomain key =>
    key.blueprint?.map fun text =>
      "Index signature key must be string, number, a literal or a union of these, got " ++ text
  | .requiredAfterOptional position =>
    some ("Required tuple element at position " ++ Nat.repr position ++
      " follows an optional element")
  | .keySetDisagrees table keys =>
    some ("Mapped type table '" ++ table.name ++ "' disagrees with the key set on: " ++
      Text.joined ", " keys.toList)
  | .notField value =>
    some ("Object field must be a FieldType or TypeNode, got " ++ value.kindName)
  | .notElement value =>
    some ("Tuple element must be a TupleElement or TypeNode, got " ++ value.kindName)
  | .notMember value => some ("Union member must be a TypeNode, got " ++ value.kindName)
  | .notMappedValue key value =>
    some ("Mapped value for '" ++ key ++ "' must be a TypeNode, got " ++ value.kindName)
  | .notType kind => some ("Unhandled type node: " ++ kind)
  | .unbound name => some ("Unresolved type reference '" ++ name ++ "'")
  | .aliasCycle chain => some ("Type alias cycle: " ++ Text.joined " -> " chain)
  | .badTest fault => some ("Invalid narrowing context: " ++ fault.message)
  | .fieldNotFound name => some ("Field '" ++ name ++ "' not found in object type")
  | .nameTaken name =>
    some ("ObjectType.of() got multiple values for argument " ++ Text.quoted name)
  | .noSuchName name => some ("module 'shapecheck' has no attribute " ++ Text.quoted name)
  | .integerTooLarge => some "int too large to convert to float"
  | .switchNotBoolean name value =>
    some (name ++ " must be a bool, got " ++ value.kindName)
  | .notCompanionSource kind =>
    some ("Companion source must be an object type, got " ++ kind)
  | .notFlag key entry =>
    some ("Companion entry '" ++ key ++ "' is " ++ entry ++ ", not a boolean literal")
  | .noReason => some "Unknown reason kind: None"
  | .noFailure => some "Unknown narrowing failure: None"
  | .noAlternative => some "list index out of range"
  | .searchTooDeep => some "The comparison of types did not end within its bound"

end Fault

end StructuralTypes
