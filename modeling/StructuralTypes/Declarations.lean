import StructuralTypes.Ty.Build

namespace StructuralTypes

/-- The types that names stand for. A name may be declared as another name. -/
structure Declarations where
  bindings : List (String × Ty)

namespace Declarations

def empty : Declarations := ⟨[]⟩

/-- Declares a name, in place of an earlier declaration of it. -/
def insert (d : Declarations) (name : String) (type : Ty) : Declarations :=
  ⟨Assoc.insert name type d.bindings⟩

def insertMany (d : Declarations) (bindings : List (String × Ty)) : Declarations :=
  ⟨Assoc.insertMany d.bindings bindings⟩

def ofList (bindings : List (String × Ty)) : Declarations :=
  empty.insertMany bindings

/-- The declarations of both, where those of `d'` win. -/
def override (d d' : Declarations) : Declarations :=
  d.insertMany d'.bindings

def get? (d : Declarations) (name : String) : Option Ty :=
  d.bindings.lookup name

def contains (d : Declarations) (name : String) : Bool :=
  Assoc.contains d.bindings name

def count (d : Declarations) : Nat :=
  d.bindings.length

def names (d : Declarations) : Names :=
  .ofList (Assoc.names d.bindings)

def toList (d : Declarations) : List (String × Ty) :=
  Assoc.sorted d.bindings

/-- Equality of the declared names and, for each, of the types. -/
def same (d d' : Declarations) : Bool :=
  d.count == d'.count && d.bindings.all fun entry =>
    match d'.get? entry.1 with
    | some t => entry.2 == t
    | none => false

def text (d : Declarations) : String :=
  "TypeEnvironment(\x7b" ++ Text.joined ", " d.names.toList ++ "\x7d)"

def size (d : Declarations) : Nat :=
  d.bindings.foldr (fun entry total => entry.2.size + total) 0

/-- What a name stands for; a name declared as the null value stands for nothing. -/
def target? (d : Declarations) (name : String) : Option Ty :=
  match d.get? name with
  | some (.foreign .null) => none
  | target => target

/-- Follows a chain of names, with the names it has been through. At most `budget` further names are
followed; a chain through distinct names never needs more than there are declarations. -/
def follow (d : Declarations) (budget : Nat) (chain : List String) (name : String) :
    Except Fault Ty :=
  if chain.contains name then .error (.aliasCycle (chain ++ [name]))
  else
    match d.target? name with
    | none => .error (.unbound name)
    | some (.named next) =>
      match budget with
      | 0 => .error (.aliasCycle (chain ++ [name, next]))
      | budget + 1 => d.follow budget (chain ++ [name]) next
    | some t => .ok t

/-- The type that a type stands for: a name is followed through the declarations, every other type
stands for itself. -/
def resolve (d : Declarations) : Ty → Except Fault Ty
  | .named name => d.follow d.count [] name
  | t => .ok t

end Declarations

end StructuralTypes
