/-!
Binary floating-point numbers of 64 bits, other than "not a number". A finite one is a sign, a
mantissa and an exponent in normal form, so equal values have equal parts, zero's sign apart.
-/

namespace StructuralTypes

namespace Binary64

/-- The parts of a value `mantissa * 2 ^ exponent` in normal form: 53 bits of mantissa, fewer only
at the least exponent. -/
def Normal (mantissa : Nat) (exponent : Int) : Prop :=
  mantissa < Nat.pow 2 53 ∧ -1074 ≤ exponent ∧ exponent ≤ 971 ∧
    (Nat.pow 2 52 ≤ mantissa ∨ exponent = -1074)

instance (mantissa : Nat) (exponent : Int) : Decidable (Normal mantissa exponent) :=
  inferInstanceAs (Decidable (_ ∧ _))

end Binary64

inductive Binary64 where
  | finite (negative : Bool) (mantissa : Nat) (exponent : Int)
      (normal : Binary64.Normal mantissa exponent)
  | infinite (negative : Bool)
  deriving DecidableEq

namespace Binary64

def zero (negative : Bool) : Binary64 :=
  .finite negative 0 (-1074) (by decide)

/-- The quotient `num / den` rounded to the nearest natural number, a half to the even one. -/
def roundHalfEven (num den : Nat) : Nat :=
  let quotient := num / den
  let rest := num % den
  if 2 * rest < den then quotient
  else if den < 2 * rest then quotient + 1
  else quotient + quotient % 2

/-- The integer part of `num / den / 2 ^ exponent`. -/
def scaledFloor (num den : Nat) (exponent : Int) : Nat :=
  (num * Nat.pow 2 (-exponent).toNat) / (den * Nat.pow 2 exponent.toNat)

/-- The exponent at which `num / den` has 53 bits before the point, at least the least exponent. -/
def exponentFor (num den : Nat) : Int :=
  let low := max (-1074) ((num.log2 : Int) - den.log2 - 53)
  if Nat.pow 2 53 ≤ scaledFloor num den low then low + 1 else low

/-- The number nearest to the quotient of two positive numbers, a half to the even mantissa. -/
def ofRatio (negative : Bool) (num den : Nat) : Binary64 :=
  if num = 0 then zero negative
  else
    let exponent := exponentFor num den
    let rounded :=
      roundHalfEven (num * Nat.pow 2 (-exponent).toNat) (den * Nat.pow 2 exponent.toNat)
    let mantissa := if rounded = Nat.pow 2 53 then Nat.pow 2 52 else rounded
    let exponent := if rounded = Nat.pow 2 53 then exponent + 1 else exponent
    if h : Normal mantissa exponent then .finite negative mantissa exponent h
    else .infinite negative

/-- The integer that a number is, if it is one. -/
def integer? : Binary64 → Option Int
  | .infinite _ => none
  | .finite negative mantissa exponent _ =>
    if mantissa % Nat.pow 2 (-exponent).toNat = 0 then
      let magnitude : Nat := mantissa / Nat.pow 2 (-exponent).toNat * Nat.pow 2 exponent.toNat
      some (if negative then -(magnitude : Int) else magnitude)
    else none

/-- Equality of values: the two zeros are one value. -/
def same : Binary64 → Binary64 → Bool
  | .infinite n, .infinite m => n == m
  | .finite n a e _, .finite m b f _ => (a == 0 && b == 0) || (n == m && a == b && e == f)
  | _, _ => false

/-- Integers below this magnitude have a nearest finite number. -/
def integerLimit : Nat :=
  Nat.pow 2 1024 - Nat.pow 2 970

end Binary64

end StructuralTypes
