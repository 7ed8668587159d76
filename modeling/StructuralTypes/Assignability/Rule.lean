import StructuralTypes.Ty.Text
import StructuralTypes.Ty.Mapped
import StructuralTypes.Policy
import StructuralTypes.Verdict

/-!
The rules of assignability. For a source and a target that are neither names nor mapped types,
`rule` lists what has to hold one level down: all of a list of obligations, or a fit with some
member of the target. No rule looks further than one level.
-/

namespace StructuralTypes.Assignability

/-- One thing that has to hold for a source to fit a target. -/
inductive Obligation where
  /-- A part of the source has to fit a part of the target; the path leads to the parts. -/
  | fits (path : Path) (source target : Ty)
  | unmet (path : Path) (reason : Reason) (source target : Ty)
  | fault (fault : Fault)

inductive Requirement where
  | all (obligations : List Obligation)
  | someMember (members : List Ty)

def Requirement.none : Requirement :=
  .all []

def mismatch (reason : Reason) (source target : Ty) : Requirement :=
  .all [.unmet [] reason source target]

/-- A readonly place does not fit a mutable one. -/
def mutability (path : Path) (readonly readonly' : Bool) (source target : Ty) : List Obligation :=
  if readonly && !readonly' then [.unmet path .readonlyViolation source target] else []

/-- An optional place does not fit a required one. -/
def presence (path : Path) (optional optional' : Bool) (source target : Ty) : List Obligation :=
  if optional && !optional' then [.unmet path .optionalityMismatch source target] else []

def slotFits (path : Path) (s t : Slot Ty) : List Obligation :=
  .fits path s.type t.type ::
    (presence path s.optional t.optional s.type t.type ++
      mutability path s.readonly t.readonly s.type t.type)

/-- A type stored behind a flag fits a type behind another, whatever is optional. -/
def valueFits (path : Path) (source : Ty) (readonly : Bool) (target : Ty) (readonly' : Bool) :
    List Obligation :=
  .fits path source target :: mutability path readonly readonly' source target

def positionsFitElement (element : Ty) (readonly : Bool) : Nat → List (Slot Ty) → List Obligation
  | _, [] => []
  | i, s :: rest =>
    valueFits [.position i] s.type s.readonly element readonly ++
      positionsFitElement element readonly (i + 1) rest

/-- The positions of a tuple fit those of another, as far as both go. -/
def positionsFit : Nat → List (Slot Ty) → List (Slot Ty) → List Obligation
  | i, s :: rest, t :: rest' => slotFits [.position i] s t ++ positionsFit (i + 1) rest rest'
  | _, _, _ => []

/-- The lengths that a tuple accepts start here. -/
def leastLength (policy : Policy) (elements : List (Slot Ty)) : Nat :=
  if policy.shortTuples then Ty.requiredCount elements else elements.length

def tupleRule (policy : Policy) (elements elements' : List (Slot Ty)) : Requirement :=
  if leastLength policy elements' ≤ elements.length ∧ elements.length ≤ elements'.length then
    .all (positionsFit 0 elements elements')
  else mismatch .lengthMismatch (.tuple elements) (.tuple elements')

/-- What a field of the target asks of the source. A field that the source does not declare may be
left out when it is optional, and may be supplied by the index rule of the source. -/
def fieldFits (policy : Policy) (source : ObjectTy) (name : String) (t : Slot Ty) :
    List Obligation :=
  match source.get? name with
  | some s => slotFits [.field name] s t
  | none =>
    if t.optional then []
    else
      let missing := [Obligation.unmet [.field name] .missingField source.toTy t.type]
      match source.index with
      | none => missing
      | some rule =>
        if policy.indexSupplies then
          match rule.key.inDomain name with
          | .error fault => [.fault fault]
          | .ok true => valueFits [.field name] rule.value rule.readonly t.type t.readonly
          | .ok false => missing
        else missing

/-- What the index rule of the target asks of a field of the source that the target does not
declare. -/
def extraFits (target : ObjectTy) (rule : IndexRule Ty) (name : String) (s : Slot Ty) :
    List Obligation :=
  if target.contains name then []
  else
    match rule.key.inDomain name with
    | .error fault => [.fault fault]
    | .ok false => []
    | .ok true => valueFits [.field name] s.type s.readonly rule.value rule.readonly

/-- What the index rule of the target asks of that of the source. -/
def indexFits (rule rule' : IndexRule Ty) : List Obligation :=
  match rule'.key.renderDomain with
  | .error fault => [.fault fault]
  | .ok domain =>
    match rule.key.covers rule'.key with
    | .error fault => [.fault fault]
    | .ok false => [.unmet [.index domain] .keyMismatch rule.key rule'.key]
    | .ok true => valueFits [.index domain] rule.value rule.readonly rule'.value rule'.readonly

def objectRule (policy : Policy) (source target : ObjectTy) : Requirement :=
  .all
    (target.fields.flatMap (fun f => fieldFits policy source f.1 f.2) ++
      match target.index with
      | none => []
      | some rule' =>
        source.fields.flatMap (fun f => extraFits target rule' f.1 f.2) ++
          match source.index with
          | none => []
          | some rule => indexFits rule rule')

/-- The rules for a source and a target that differ and of which none is special, by their kinds.
Names, mapped types and foreign values are no targets here. -/
def kindRule (policy : Policy) : Ty → Ty → Requirement
  | .union members, target => .all (members.map fun m => .fits [] m target)
  | _, .union members => .someMember members
  | .literal l, target =>
    if policy.widenLiterals && target == Ty.base l then .none
    else mismatch .typeMismatch (.literal l) target
  | .array element readonly, .array element' readonly' =>
    .all (.fits [.element] element element' ::
      mutability [] readonly readonly' (.array element readonly) (.array element' readonly'))
  | .tuple elements, .array element' readonly' =>
    .all (positionsFitElement element' readonly' 0 elements)
  | .tuple elements, .tuple elements' => tupleRule policy elements elements'
  | .array element readonly, .tuple elements' =>
    mismatch .lengthMismatch (.array element readonly) (.tuple elements')
  | .object fields index, .object fields' index' =>
    objectRule policy ⟨fields, index⟩ ⟨fields', index'⟩
  | .primitive name, target => mismatch .typeMismatch (.primitive name) target
  | source, .primitive name => mismatch .typeMismatch source (.primitive name)
  | source, .literal l => mismatch .typeMismatch source (.literal l)
  | source, .array element' readonly' => mismatch .typeMismatch source (.array element' readonly')
  | source, .tuple elements' => mismatch .typeMismatch source (.tuple elements')
  | source, .object fields' index' => mismatch .typeMismatch source (.object fields' index')
  | _, target => .all [.fault (.notType target.kindName)]

def isPrimitive (name : String) : Ty → Bool
  | .primitive n => n == name
  | _ => false

/-- The rules below equality: "any" fits everywhere and takes everything, everything fits
"unknown" and "never" fits everywhere; nothing else fits "never", and "unknown" fits nothing else.
-/
def structuralRule (policy : Policy) (source target : Ty) : Requirement :=
  if isPrimitive "any" target || isPrimitive "unknown" target || isPrimitive "any" source ||
      isPrimitive "never" source then .none
  else if isPrimitive "never" target || isPrimitive "unknown" source then
    mismatch .typeMismatch source target
  else kindRule policy source target

/-- What makes a source fit a target; equal types fit. -/
def rule (policy : Policy) (source target : Ty) : Requirement :=
  if source == target then .none else structuralRule policy source target

end StructuralTypes.Assignability
