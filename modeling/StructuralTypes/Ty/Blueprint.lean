import StructuralTypes.Ty.Basic
import StructuralTypes.Text.Joined

namespace StructuralTypes.Ty

def flagText (b : Bool) : String :=
  (Scalar.bool b).shown

/-- A parenthesised list; a single item is followed by a comma. -/
def grouped : List String → String
  | [item] => "(" ++ item ++ ",)"
  | items => "(" ++ Text.joined ", " items ++ ")"

def literalValueText : Literal → String
  | .text s => Text.quoted s
  | .number n => n.text
  | .bool b => flagText b

mutual

/-- Names every part of a type as it was built: constructor, parts and modifiers. -/
def blueprint : Ty → String
  | .primitive name => "PrimitiveType(name=" ++ Text.quoted name ++ ")"
  | .literal l =>
    "LiteralType(value=" ++ literalValueText l ++ ", kind=" ++ Text.quoted l.kind ++ ")"
  | .object fields index =>
    "ObjectType(fields=" ++ grouped (blueprintFields fields) ++ ", index_signature=" ++
      blueprintIndex index ++ ")"
  | .array element readonly =>
    "ArrayType(element=" ++ blueprint element ++ ", readonly=" ++ flagText readonly ++ ")"
  | .tuple elements => "TupleType(elements=" ++ grouped (blueprintSlots elements) ++ ")"
  | .union members => "UnionType(members=" ++ grouped (blueprintMembers members) ++ ")"
  | .mapped entries => "MappedType(" ++ Text.joined ", " (blueprintFields entries) ++ ")"
  | .named name => "TypeReference(name=" ++ Text.quoted name ++ ")"
  | .foreign v => v.shown
termination_by structural t => t

def blueprintFields : List (String × Slot Ty) → List String
  | [] => []
  | (name, ⟨t, readonly, optional⟩) :: rest =>
    ("(" ++ Text.quoted name ++ ", FieldType(type=" ++ blueprint t ++ ", readonly=" ++
      flagText readonly ++ ", optional=" ++ flagText optional ++ "))") :: blueprintFields rest
termination_by structural fields => fields

def blueprintIndex : Option (IndexRule Ty) → String
  | none => "None"
  | some ⟨key, value, readonly⟩ =>
    "IndexSignature(key_type=" ++ blueprint key ++ ", value_type=" ++ blueprint value ++
      ", readonly=" ++ flagText readonly ++ ")"
termination_by structural index => index

def blueprintSlots : List (Slot Ty) → List String
  | [] => []
  | ⟨t, readonly, optional⟩ :: rest =>
    ("TupleElement(type=" ++ blueprint t ++ ", readonly=" ++ flagText readonly ++
      ", optional=" ++ flagText optional ++ ")") :: blueprintSlots rest
termination_by structural elements => elements

def blueprintMembers : List Ty → List String
  | [] => []
  | t :: rest => blueprint t :: blueprintMembers rest
termination_by structural members => members

end

mutual

/-- Whether there is a mapped type anywhere inside. Its tables have no order to show. -/
def hasMapped : Ty → Bool
  | .object fields index => hasMappedField fields || hasMappedIndex index
  | .array element _ => hasMapped element
  | .tuple elements => hasMappedSlot elements
  | .union members => hasMappedMember members
  | .mapped _ => true
  | _ => false
termination_by structural t => t

def hasMappedField : List (String × Slot Ty) → Bool
  | [] => false
  | (_, ⟨t, _, _⟩) :: rest => hasMapped t || hasMappedField rest
termination_by structural fields => fields

def hasMappedIndex : Option (IndexRule Ty) → Bool
  | none => false
  | some ⟨key, value, _⟩ => hasMapped key || hasMapped value
termination_by structural index => index

def hasMappedSlot : List (Slot Ty) → Bool
  | [] => false
  | ⟨t, _, _⟩ :: rest => hasMapped t || hasMappedSlot rest
termination_by structural elements => elements

def hasMappedMember : List Ty → Bool
  | [] => false
  | t :: rest => hasMapped t || hasMappedMember rest
termination_by structural members => members

end

def blueprint? (t : Ty) : Option String :=
  if t.hasMapped then none else some t.blueprint

end StructuralTypes.Ty
