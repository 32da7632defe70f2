/-!
# Binary64 numbers

What the library needs of double precision numbers beyond core's arithmetic:
the number nearest to an integer, and the integer part of a number. Both read
the sign, mantissa and exponent that the logical model of `Float` gives.
-/

namespace Lateral.Binary64

/-- The double precision number nearest to an integer, a tie going to the even mantissa. -/
def ofInt (number : Int) : Float :=
  .ofModel (.ofInt number)

/-- The largest natural number that is at most `mantissa * 2 ^ exponent`. -/
def wholePart (mantissa : Nat) (exponent : Int) : Nat :=
  mantissa * Nat.pow 2 exponent.toNat / Nat.pow 2 (-exponent).toNat

/-- The integer part of a number, cut off toward zero. Infinities and NaN have none. -/
def integerPart? (number : Float) : Option Int :=
  match number.toModel.unpack with
  | .finite sign mantissa exponent _ => some (sign.apply (wholePart mantissa exponent))
  | .zero _ => some 0
  | .infinity _ => none
  | .notANumber => none

/-- The number with its fraction removed, where nothing is left as positive zero. Infinities and
NaN stay as they are. -/
def truncate (number : Float) : Float :=
  match number.toModel.unpack with
  | .finite sign mantissa exponent _ =>
    if exponent < 0 then ofInt (sign.apply (wholePart mantissa exponent)) else number
  | _ => number

end Lateral.Binary64
