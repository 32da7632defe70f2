/-!
# Shortest decimal digits

A binary number `mantissa * 2 ^ exponent` of the binary64 format is written with
the fewest decimal digits that are still read back as the same number. A decimal
is read as the nearest binary number, so it reads back when it lies within half
a step of the number on either side; an end of that interval belongs to the
number exactly when its mantissa is even. Below a power of two the step halves.

For one digit, two digits and so on the two decimals next to the number are
tried. The first count of digits with a decimal that reads back wins; of two,
the nearer one does, and the even one of two that are equally near. Everything
is compared in whole numbers, after multiplying out the powers of two and ten.
-/

namespace Lateral

/-- The decimal number `digits * 10 ^ exponent`. -/
structure Decimal where
  digits : Nat
  exponent : Int
  deriving DecidableEq, Repr

/-- The binary number `mantissa * 2 ^ exponent`. -/
structure Binary where
  mantissa : Nat
  exponent : Int
  deriving DecidableEq, Repr

namespace Decimal

/-- How a decimal number compares with `multiple * 2 ^ scale`. Negative powers change sides. -/
def compareWith (decimal : Decimal) (multiple : Nat) (scale : Int) : Ordering :=
  compare (decimal.digits * Nat.pow 10 decimal.exponent.toNat * Nat.pow 2 (-scale).toNat)
    (multiple * Nat.pow 2 scale.toNat * Nat.pow 10 (-decimal.exponent).toNat)

/-- Moves trailing zeros of the digits into the exponent, at most `count` of them. -/
def dropZeros : Nat → Decimal → Decimal
  | 0, decimal => decimal
  | count + 1, decimal =>
    if decimal.digits % 10 = 0 then
      dropZeros count ⟨decimal.digits / 10, decimal.exponent + 1⟩
    else
      decimal

end Decimal

namespace Binary

/-- The smallest exponent of a binary64 number. -/
def leastExponent : Int := -1074

/-- The step to the number below is half as large from a power of two downwards. -/
def atStepChange (number : Binary) : Bool :=
  number.mantissa == Nat.pow 2 52 && decide (leastExponent < number.exponent)

/-- Lower end of the interval that is read as the number, in quarters of its step. -/
def lowerQuarters (number : Binary) : Nat :=
  4 * number.mantissa - (if number.atStepChange then 1 else 2)

/-- Upper end of the interval that is read as the number, in quarters of its step. -/
def upperQuarters (number : Binary) : Nat :=
  4 * number.mantissa + 2

/-- Whether a decimal is read back as the number. -/
def readBackFrom (number : Binary) (decimal : Decimal) : Bool :=
  let low := decimal.compareWith number.lowerQuarters (number.exponent - 2)
  let high := decimal.compareWith number.upperQuarters (number.exponent - 2)
  if number.mantissa % 2 = 0 then
    low != .lt && high != .gt
  else
    low == .gt && high == .lt

/-- Numerator and denominator of the number divided by `10 ^ unit`. -/
def ratio (number : Binary) (unit : Int) : Nat × Nat :=
  (number.mantissa * Nat.pow 2 number.exponent.toNat * Nat.pow 10 (-unit).toNat,
    Nat.pow 2 (-number.exponent).toNat * Nat.pow 10 unit.toNat)

/-- Decimal places enough to give every positive binary64 number a digit other than zero. -/
def placesForLeast : Nat := 330

/-- The least power of ten above the number, so that `10 ^ (order - 1)` is not above it. -/
def decimalOrder (number : Binary) : Int :=
  let (top, bottom) := number.ratio (-(placesForLeast : Int))
  ((Nat.repr (top / bottom)).length : Int) - (placesForLeast : Int)

/-- The largest decimal in steps of `10 ^ unit` that is not above the number. -/
def gridBelow (number : Binary) (unit : Int) : Decimal :=
  let (top, bottom) := number.ratio unit
  ⟨top / bottom, unit⟩

/-- The nearest to the number of those among the two decimals next to it, in steps of
`10 ^ unit`, that read back. -/
def nearestOnGrid? (number : Binary) (unit : Int) : Option Decimal :=
  let (top, bottom) := number.ratio unit
  let below := number.gridBelow unit
  let above : Decimal := ⟨below.digits + 1, unit⟩
  match number.readBackFrom below, number.readBackFrom above with
  | false, false => none
  | true, false => some below
  | false, true => some above
  | true, true =>
    match compare (2 * (top % bottom)) bottom with
    | .lt => some below
    | .gt => some above
    | .eq => some (if below.digits % 2 = 0 then below else above)

/-- Digits enough to tell any two binary64 numbers apart. -/
def mostDigits : Nat := 17

/-- The decimal with the fewest digits that reads back as a positive number, nearest to it
among those. -/
def shortest (number : Binary) : Decimal :=
  let order := number.decimalOrder
  let withDigits (count : Nat) : Option Decimal := number.nearestOnGrid? (order - count)
  let counts := (List.range mostDigits).map (· + 1)
  ((counts.findSome? withDigits).getD (number.gridBelow (order - mostDigits))).dropZeros mostDigits

end Binary

end Lateral
