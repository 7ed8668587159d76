import StructuralTypes.Number.Binary64

namespace StructuralTypes.Decimal

def spanDigits (text : List Char) : List Char × List Char :=
  (text.takeWhile Char.isDigit, text.dropWhile Char.isDigit)

def digitsValue (digits : List Char) : Nat :=
  digits.foldl (fun n c => 10 * n + (c.toNat - '0'.toNat)) 0

/-- Splits a sign off a text; `true` stands for minus. -/
def spanSign : List Char → Bool × List Char
  | '-' :: rest => (true, rest)
  | '+' :: rest => (false, rest)
  | text => (false, text)

/-- Reads the power of ten that may follow the digits. -/
def power? : List Char → Option Int
  | [] => some 0
  | mark :: rest =>
    let (negative, text) := spanSign rest
    if (mark = 'e' ∨ mark = 'E') ∧ !text.isEmpty ∧ text.all Char.isDigit then
      some (if negative then -(digitsValue text : Int) else digitsValue text)
    else none

/-- The binary number nearest to `coefficient * 10 ^ exponent`. -/
def nearest (negative : Bool) (coefficient : Nat) (exponent : Int) : Binary64 :=
  let magnitude : Int := exponent + (Nat.toDigits 10 coefficient).length
  if coefficient = 0 ∨ magnitude < -400 then .zero negative
  else if 400 < magnitude then .infinite negative
  else .ofRatio negative (coefficient * Nat.pow 10 exponent.toNat) (Nat.pow 10 (-exponent).toNat)

def unsigned? (negative : Bool) (text : List Char) : Option Binary64 :=
  let (whole, rest) := spanDigits text
  let (fraction, rest) :=
    match rest with
    | '.' :: tail => spanDigits tail
    | _ => ([], rest)
  if whole.isEmpty ∧ fraction.isEmpty then none
  else (power? rest).map fun power =>
    nearest negative (digitsValue (whole ++ fraction)) (power - fraction.length)

/-- Reads an optional sign, digits with an optional point and an optional power of ten, or the word
for infinity, as the nearest binary number. -/
def read? (text : String) : Option Binary64 :=
  let (negative, body) := spanSign text.toList
  let word := String.ofList (body.map Char.toLower)
  if word = "inf" ∨ word = "infinity" then some (.infinite negative)
  else unsigned? negative body

end StructuralTypes.Decimal
