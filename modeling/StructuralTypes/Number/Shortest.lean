import StructuralTypes.Number.Binary64

/-!
The shortest decimal of a binary number: the fewest digits that read back as the number, and of
those the digits nearest to it. The text is positional for moderate magnitudes and has a power of
ten otherwise.
-/

namespace StructuralTypes.Binary64

/-- A positive decimal: `digits * 10 ^ scale`. -/
structure Scaled where
  digits : Nat
  scale : Int

/-- Whether `digits * 10 ^ scale` is at most `factor * 2 ^ exponent`. -/
def Scaled.le (d : Scaled) (factor : Nat) (exponent : Int) : Bool :=
  decide (d.digits * Nat.pow 10 d.scale.toNat * Nat.pow 2 (-exponent).toNat ≤
    factor * Nat.pow 2 exponent.toNat * Nat.pow 10 (-d.scale).toNat)

/-- Whether `digits * 10 ^ scale` is at least `factor * 2 ^ exponent`. -/
def Scaled.ge (d : Scaled) (factor : Nat) (exponent : Int) : Bool :=
  decide (factor * Nat.pow 2 exponent.toNat * Nat.pow 10 (-d.scale).toNat ≤
    d.digits * Nat.pow 10 d.scale.toNat * Nat.pow 2 (-exponent).toNat)

/-- Whether a decimal reads back as `mantissa * 2 ^ exponent`. The ends of the interval of values
that do are halfway to the neighbours, and belong to it when the mantissa is even. The lower
neighbour is closer when the mantissa is a power of two with a smaller exponent below it. -/
def Scaled.readsBack (d : Scaled) (mantissa : Nat) (exponent : Int) : Bool :=
  let low :=
    if mantissa = Nat.pow 2 52 ∧ -1074 < exponent then 4 * mantissa - 1 else 4 * mantissa - 2
  let high := 4 * mantissa + 2
  let within := d.ge low (exponent - 2) && d.le high (exponent - 2)
  if mantissa % 2 = 0 then within
  else within && !d.le low (exponent - 2) && !d.ge high (exponent - 2)

/-- The power of ten of the leading digit of `num / den`. -/
def leadingPower (num den : Nat) : Int :=
  let guess : Int := (Nat.toDigits 10 num).length - (Nat.toDigits 10 den).length
  if den * Nat.pow 10 guess.toNat ≤ num * Nat.pow 10 (-guess).toNat then guess else guess - 1

/-- The nearest decimal with `count` digits that reads back, if there is one. -/
def withDigits? (mantissa : Nat) (exponent : Int) (count : Nat) : Option Scaled :=
  let num := mantissa * Nat.pow 2 exponent.toNat
  let den := Nat.pow 2 (-exponent).toNat
  let scale := leadingPower num den - count + 1
  let top := num * Nat.pow 10 (-scale).toNat
  let bottom := den * Nat.pow 10 scale.toNat
  let below : Scaled := ⟨top / bottom, scale⟩
  let above : Scaled := ⟨top / bottom + 1, scale⟩
  let nearer := if roundHalfEven top bottom = below.digits then below else above
  let farther := if roundHalfEven top bottom = below.digits then above else below
  if nearer.readsBack mantissa exponent then some nearer
  else if farther.readsBack mantissa exponent then some farther
  else none

/-- The shortest decimal of a positive number; seventeen digits always read back. -/
def shortest (mantissa : Nat) (exponent : Int) : Scaled :=
  ((List.range' 1 17).findSome? (withDigits? mantissa exponent)).getD ⟨mantissa, exponent⟩

/-- How a decimal is laid out: from which to below which power of the leading digit it is
positional, and the least number of digits of a written power. -/
structure Layout where
  positionalFrom : Int
  positionalBelow : Int
  powerWidth : Nat

/-- Positional from a ten-thousandth up to below ten to the sixteenth, powers with two digits. -/
def layout : Layout :=
  ⟨-4, 16, 2⟩

/-- Digits with a point after the digit of power zero. -/
def positional (digits : List Char) (power : Int) : List Char :=
  if power < 0 then
    '0' :: '.' :: List.replicate (-power - 1).toNat '0' ++ digits
  else
    let whole := power.toNat + 1
    let fraction := digits.drop whole
    digits.take whole ++ List.replicate (whole - digits.length) '0' ++
      '.' :: (if fraction.isEmpty then ['0'] else fraction)

/-- Digits with a point after the first one, and the power of ten. -/
def withPower (digits : List Char) (power : Int) : List Char :=
  let written := Nat.toDigits 10 power.natAbs
  let point := if (digits.drop 1).isEmpty then [] else '.' :: digits.drop 1
  digits.take 1 ++ point ++ 'e' :: (if power < 0 then '-' else '+') ::
    List.replicate (layout.powerWidth - written.length) '0' ++ written

/-- The text of a positive decimal without its trailing zeros. -/
def Scaled.text (d : Scaled) : List Char :=
  let all := Nat.toDigits 10 d.digits
  let digits := (all.reverse.dropWhile (· == '0')).reverse
  let power : Int := d.scale + all.length - 1
  if layout.positionalFrom ≤ power ∧ power < layout.positionalBelow then positional digits power
  else withPower digits power

/-- The text of a number: the shortest decimal that reads back. -/
def text : Binary64 → String
  | .infinite negative => if negative then "-inf" else "inf"
  | .finite negative mantissa exponent _ =>
    let body :=
      if mantissa = 0 then positional ['0'] 0 else (shortest mantissa exponent).text
    String.ofList (if negative then '-' :: body else body)

end StructuralTypes.Binary64
