import StructuralTypes.Number.Basic
import StructuralTypes.Text.Quoted

namespace StructuralTypes

inductive Scalar where
  | null
  | bool (value : Bool)
  | int (value : Int)
  | text (value : String)
  deriving DecidableEq

/-- Any value that a caller may hand over; of a list and of a table only the size matters. -/
inductive Value where
  | scalar (value : Scalar)
  | float (value : Binary64)
  | list (length : Nat)
  | table (size : Nat)
  deriving DecidableEq

/-- The exact values that types can hold. -/
inductive Literal where
  | text (value : String)
  | number (value : Number)
  | bool (value : Bool)
  deriving DecidableEq

namespace Scalar

def kindName : Scalar → String
  | .null => "NoneType"
  | .bool _ => "bool"
  | .int _ => "int"
  | .text _ => "str"

/-- The integer that a value counts as when values are compared. -/
def integer? : Scalar → Option Int
  | .bool b => some (if b then 1 else 0)
  | .int n => some n
  | _ => none

/-- Equality of values; a truth value counts as zero or one. -/
def same (a b : Scalar) : Bool :=
  match a.integer?, b.integer? with
  | some n, some m => n == m
  | none, none => a == b
  | _, _ => false

def plain : Scalar → String
  | .null => "None"
  | .bool b => if b then "True" else "False"
  | .int n => Number.integerText n
  | .text s => s

/-- The text of a value inside a description, where texts are quoted. -/
def shown : Scalar → String
  | .text s => Text.quoted s
  | v => v.plain

end Scalar

namespace Value

def kindName : Value → String
  | .scalar s => s.kindName
  | .float _ => "float"
  | .list _ => "list"
  | .table _ => "dict"

/-- Whether a value counts as true: zero, and what is empty or absent, counts as false. -/
def truth : Value → Bool
  | .scalar .null => false
  | .scalar (.bool b) => b
  | .scalar (.int n) => n != 0
  | .scalar (.text s) => s != ""
  | .float x => x.integer? != some 0
  | .list n => n != 0
  | .table n => n != 0

end Value

namespace Literal

/-- The literal of a value, if the value is a text, a number or a truth value. -/
def ofValue? : Value → Option Literal
  | .scalar (.text s) => some (.text s)
  | .scalar (.bool b) => some (.bool b)
  | .scalar (.int n) => some (.number (.int n))
  | .float x => some (.number (.float x))
  | _ => none

/-- The kind of a literal, which is also the name of the primitive type it widens to. -/
def kind : Literal → String
  | .text _ => "string"
  | .number _ => "number"
  | .bool _ => "boolean"

def same : Literal → Literal → Bool
  | .text a, .text b => a == b
  | .number a, .number b => a.same b
  | .bool a, .bool b => a == b
  | _, _ => false

def render : Literal → String
  | .text s => Text.quoted s
  | .number n => n.text
  | .bool b => if b then "true" else "false"

end Literal

end StructuralTypes
