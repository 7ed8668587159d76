import StructuralTypes.Fault

namespace StructuralTypes

namespace Key

/-- Nothing, or a point and one or more digits. -/
def isFraction : List Char → Bool
  | [] => true
  | '.' :: d :: rest => d.isDigit && rest.all Char.isDigit
  | _ => false

/-- Zero or digits without a leading zero, then a fraction. -/
def isUnsigned : List Char → Bool
  | [] => false
  | '0' :: rest => isFraction rest
  | d :: rest => d.isDigit && isFraction (rest.dropWhile Char.isDigit)

def isNumeral : List Char → Bool
  | '-' :: rest => isUnsigned rest
  | text => isUnsigned text

def withoutNewline (text : List Char) : List Char :=
  if text.getLast? = some '\n' then text.dropLast else text

/-- Whether a name spells a number, possibly followed by a newline. -/
def isNumeric (name : String) : Bool :=
  isNumeral (withoutNewline name.toList)

end Key

namespace Literal

/-- The name that a literal stands for: a number with an integer value is written as an integer. -/
def keyText : Literal → String
  | .text s => s
  | .bool b => (Scalar.bool b).plain
  | .number (.int n) => Number.integerText n
  | .number (.float x) =>
    match x.integer? with
    | some n => Number.integerText n
    | none => x.text

/-- An integer out of the range of binary numbers stands for no name. -/
def keyFault? : Literal → Option Fault
  | .number (.int n) => if n.natAbs < Binary64.integerLimit then none else some .integerTooLarge
  | _ => none

/-- The name that a literal stands for, or the reason why there is none. -/
def key (l : Literal) : Except Fault String :=
  match l.keyFault? with
  | some fault => .error fault
  | none => .ok l.keyText

end Literal

namespace Ty

mutual

/-- The types that can be the key of an index rule. -/
def isKeyDomain : Ty → Bool
  | .primitive name => name == "string" || name == "number"
  | .literal (.bool _) => false
  | .literal _ => true
  | .union members => areKeyDomains members
  | _ => false
termination_by structural t => t

def areKeyDomains : List Ty → Bool
  | [] => true
  | t :: rest => isKeyDomain t && areKeyDomains rest
termination_by structural members => members

end

mutual

/-- Whether a name is in the domain of a key type. The members of a union are asked in order until
one has the name. -/
def inDomain (name : String) : Ty → Except Fault Bool
  | .primitive p => .ok (p == "string" || (p == "number" && Key.isNumeric name))
  | .literal l => l.key.map (· == name)
  | .union members => inSomeDomain name members
  | _ => .ok false
termination_by structural t => t

def inSomeDomain (name : String) : List Ty → Except Fault Bool
  | [] => .ok false
  | t :: rest =>
    match inDomain name t with
    | .error fault => .error fault
    | .ok true => .ok true
    | .ok false => inSomeDomain name rest
termination_by structural members => members

end

/-- Whether the domain of all numbers has the whole domain of a key type that is no union. -/
def numbersCover : Ty → Except Fault Bool
  | .primitive p => .ok (p == "number")
  | .literal l => l.key.map Key.isNumeric
  | _ => .ok false

/-- Whether the domain of a literal has the whole domain of a key type that is no union. -/
def literalCovers (wider : Literal) : Ty → Except Fault Bool
  | .literal narrower =>
    match wider.key, narrower.key with
    | .error fault, _ => .error fault
    | _, .error fault => .error fault
    | .ok a, .ok b => .ok (a == b)
  | _ => .ok false

mutual

/-- Whether the domain of a key type has the whole domain of another that is no union. The members
of a union are asked in order until one covers it. -/
def coversOne (narrower : Ty) : Ty → Except Fault Bool
  | .union members => someCoversOne narrower members
  | .primitive p =>
    if p = "string" then .ok true
    else if p = "number" then numbersCover narrower
    else .ok false
  | .literal l => literalCovers l narrower
  | _ => .ok false
termination_by structural wider => wider

def someCoversOne (narrower : Ty) : List Ty → Except Fault Bool
  | [] => .ok false
  | t :: rest =>
    match coversOne narrower t with
    | .error fault => .error fault
    | .ok true => .ok true
    | .ok false => someCoversOne narrower rest
termination_by structural members => members

end

mutual

/-- Whether the domain of `wider` has the whole domain of another key type. Every member of a
union has to be covered, and they are looked at in order until one is not. -/
def covers (wider : Ty) : Ty → Except Fault Bool
  | .union members => coversEach wider members
  | narrower => coversOne narrower wider
termination_by structural narrower => narrower

def coversEach (wider : Ty) : List Ty → Except Fault Bool
  | [] => .ok true
  | t :: rest =>
    match covers wider t with
    | .error fault => .error fault
    | .ok false => .ok false
    | .ok true => coversEach wider rest
termination_by structural members => members

end

end Ty

end StructuralTypes
