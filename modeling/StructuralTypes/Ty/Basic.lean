import StructuralTypes.Literal

/-!
Structural types. A slot is a place of a type together with its modifiers; objects have named slots
and may have an index rule for all other names, tuples have slots by position. A mapped type is a
table of slots in ascending order of names. A place that should hold a type may hold a foreign value
instead; most operations refuse it.
-/

namespace StructuralTypes

/-- A type with the modifiers of the place it stands in. -/
structure Slot (α : Type) where
  type : α
  readonly : Bool := false
  optional : Bool := false

/-- The type of all values stored under the names of a domain. -/
structure IndexRule (α : Type) where
  key : α
  value : α
  readonly : Bool := false

inductive Ty where
  | primitive (name : String)
  | literal (value : Literal)
  | object (fields : List (String × Slot Ty)) (index : Option (IndexRule Ty))
  | array (element : Ty) (readonly : Bool)
  | tuple (elements : List (Slot Ty))
  | union (members : List Ty)
  | mapped (entries : List (String × Slot Ty))
  | named (name : String)
  | foreign (value : Scalar)

namespace Ty

def string : Ty := .primitive "string"

def number : Ty := .primitive "number"

def boolean : Ty := .primitive "boolean"

/-- The primitive type that a literal widens to. -/
def base (l : Literal) : Ty := .primitive l.kind

def kindName : Ty → String
  | .primitive _ => "PrimitiveType"
  | .literal _ => "LiteralType"
  | .object _ _ => "ObjectType"
  | .array _ _ => "ArrayType"
  | .tuple _ => "TupleType"
  | .union _ => "UnionType"
  | .mapped _ => "MappedType"
  | .named _ => "TypeReference"
  | .foreign v => v.kindName

/-- The value that stands where a type should, if so. -/
def foreign? : Ty → Option Scalar
  | .foreign v => some v
  | _ => none

def isNamed : Ty → Bool
  | .named _ => true
  | _ => false

/-- A mapped type as the object it stands for; every other type as it is. -/
def expanded : Ty → Ty
  | .mapped entries => .object entries none
  | t => t

def requiredCount (elements : List (Slot Ty)) : Nat :=
  elements.countP fun e => !e.optional

mutual

/-- The number of types inside a type, itself included. -/
def size : Ty → Nat
  | .object fields index => sizeFields fields + sizeIndex index + 1
  | .array element _ => size element + 1
  | .tuple elements => sizeSlots elements + 1
  | .union members => sizeMembers members + 1
  | .mapped entries => sizeFields entries + 1
  | _ => 1
termination_by structural t => t

def sizeFields : List (String × Slot Ty) → Nat
  | [] => 0
  | (_, ⟨t, _, _⟩) :: rest => size t + sizeFields rest
termination_by structural fields => fields

def sizeIndex : Option (IndexRule Ty) → Nat
  | none => 0
  | some ⟨k, v, _⟩ => size k + size v
termination_by structural index => index

def sizeSlots : List (Slot Ty) → Nat
  | [] => 0
  | ⟨t, _, _⟩ :: rest => size t + sizeSlots rest
termination_by structural elements => elements

def sizeMembers : List Ty → Nat
  | [] => 0
  | t :: rest => size t + sizeMembers rest
termination_by structural members => members

end

end Ty

end StructuralTypes
