import StructuralTypes.Ty.Equality
import StructuralTypes.Ty.Key
import StructuralTypes.Names
import StructuralTypes.Assoc

namespace StructuralTypes

/-- What may be given for a field or for a tuple position: a full slot, or a bare type that stands
for a mutable and required one. -/
inductive SlotSpec where
  | slot (slot : Slot Ty)
  | bare (type : Ty)

namespace SlotSpec

/-- The slot that is meant; a bare value that is no type is refused. -/
def toSlot (refusal : Scalar → Fault) : SlotSpec → Except Fault (Slot Ty)
  | .slot s => .ok s
  | .bare (.foreign v) => .error (refusal v)
  | .bare t => .ok ⟨t, false, false⟩

end SlotSpec

namespace IndexRule

/-- An index rule over a key type that describes a domain of names. -/
def build (key value : Ty) (readonly : Bool) : Except Fault (IndexRule Ty) :=
  if key.isKeyDomain then .ok ⟨key, value, readonly⟩ else .error (.notKeyDomain key)

end IndexRule

namespace Ty

def ofValue (value : Value) : Except Fault Ty :=
  match Literal.ofValue? value with
  | some l => .ok (.literal l)
  | none => .error (.notLiteral value)

/-- The fields of an object, with the names seen so far. A name that comes again is refused before
its field is looked at. -/
def buildFields (seen : List String) : List (String × SlotSpec) →
    Except Fault (List (String × Slot Ty))
  | [] => .ok []
  | (name, spec) :: rest =>
    if seen.contains name then .error (.duplicateField name)
    else
      match spec.toSlot .notField with
      | .error fault => .error fault
      | .ok slot => (buildFields (name :: seen) rest).map ((name, slot) :: ·)

def buildSlots : List SlotSpec → Except Fault (List (Slot Ty))
  | [] => .ok []
  | spec :: rest =>
    match spec.toSlot .notElement with
    | .error fault => .error fault
    | .ok slot => (buildSlots rest).map (slot :: ·)

/-- The first position that is required and comes after an optional one. -/
def misplacedPosition? (seenOptional : Bool) (position : Nat) : List (Slot Ty) → Option Nat
  | [] => none
  | slot :: rest =>
    if slot.optional then misplacedPosition? true (position + 1) rest
    else if seenOptional then some position
    else misplacedPosition? seenOptional (position + 1) rest

/-- A tuple whose optional positions all come last. -/
def buildTuple (specs : List SlotSpec) : Except Fault Ty :=
  match buildSlots specs with
  | .error fault => .error fault
  | .ok slots =>
    match misplacedPosition? false 0 slots with
    | some position => .error (.requiredAfterOptional position)
    | none => .ok (.tuple slots)

/-- A union of one or more types; a member equal to an earlier one is dropped. -/
def buildUnion (members : List Ty) : Except Fault Ty :=
  match members.findSome? foreign? with
  | some v => .error (.notMember v)
  | none =>
    match distinct members with
    | [] => .error .emptyUnion
    | kept => .ok (.union kept)

/-- The members that a type contributes to a union: those of a union, or the type itself. -/
def ownMembers : Ty → List Ty
  | .union members => members
  | t => [t]

/-- The union of types, with the members of unions among them taken in their place. A single member
is returned as it is. -/
def flatUnion (members : List Ty) : Except Fault Ty :=
  match buildUnion (members.flatMap ownMembers) with
  | .ok (.union [m]) => .ok m
  | result => result

end Ty

end StructuralTypes
