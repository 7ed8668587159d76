import StructuralTypes.Ty.Basic

namespace StructuralTypes.Ty

mutual

/-- Structural equality. The order of fields and of union members does not matter, the order of
tuple positions does; number literals are equal when their exact values are. -/
def same : Ty → Ty → Bool
  | .primitive a, .primitive b => a == b
  | .literal a, .literal b => a.same b
  | .object fields index, .object fields' index' =>
    fields.length == fields'.length && sameFields fields fields' && sameIndex index index'
  | .array element readonly, .array element' readonly' =>
    same element element' && readonly == readonly'
  | .tuple elements, .tuple elements' => sameSlots elements elements'
  | .union members, .union members' =>
    eachIn members members' && members'.all fun m => someSame members m
  | .mapped entries, .mapped entries' =>
    entries.length == entries'.length && sameFields entries entries'
  | .named a, .named b => a == b
  | .foreign a, .foreign b => a.same b
  | _, _ => false
termination_by structural t => t

/-- Each field has an equal field of the same name in the other list. -/
def sameFields : List (String × Slot Ty) → List (String × Slot Ty) → Bool
  | [], _ => true
  | (name, ⟨t, readonly, optional⟩) :: rest, fields' =>
    (match fields'.lookup name with
      | some s => same t s.type && readonly == s.readonly && optional == s.optional
      | none => false) &&
    sameFields rest fields'
termination_by structural fields => fields

def sameIndex : Option (IndexRule Ty) → Option (IndexRule Ty) → Bool
  | none, none => true
  | some ⟨key, value, readonly⟩, some index' =>
    same key index'.key && same value index'.value && readonly == index'.readonly
  | _, _ => false
termination_by structural index => index

def sameSlots : List (Slot Ty) → List (Slot Ty) → Bool
  | [], [] => true
  | ⟨t, readonly, optional⟩ :: rest, s :: rest' =>
    same t s.type && readonly == s.readonly && optional == s.optional && sameSlots rest rest'
  | _, _ => false
termination_by structural elements => elements

/-- Each member equals one of the other list. -/
def eachIn : List Ty → List Ty → Bool
  | [], _ => true
  | m :: rest, members' => members'.any (fun m' => same m m') && eachIn rest members'
termination_by structural members => members

def someSame : List Ty → Ty → Bool
  | [], _ => false
  | m :: rest, t => same m t || someSame rest t
termination_by structural members => members

end

instance : BEq Ty := ⟨same⟩

/-- The members that equal no earlier one, in order. -/
def distinct : List Ty → List Ty
  | [] => []
  | m :: rest => m :: (distinct rest).filter fun m' => !(m == m')

end StructuralTypes.Ty
