import StructuralTypes.Number.Shortest

namespace StructuralTypes

/-- Numbers as they are written in types. Two are the same when their exact values are. -/
inductive Number where
  | int (value : Int)
  | float (value : Binary64)
  deriving DecidableEq

namespace Number

/-- Equality of exact values, across the two kinds. -/
def same : Number → Number → Bool
  | .int a, .int b => a == b
  | .int a, .float b => b.integer? == some a
  | .float a, .int b => a.integer? == some b
  | .float a, .float b => a.same b

/-- The decimal text of an integer, however long. A bound that a host may put on the number of
digits is left out. -/
def integerText (n : Int) : String :=
  if n < 0 then "-" ++ Nat.repr n.natAbs else Nat.repr n.natAbs

def text : Number → String
  | .int n => integerText n
  | .float x => x.text

end Number

end StructuralTypes
