import Lateral.Number.Shortest

/-!
# Text of a double precision number

The written form of a number: its shortest digits, laid out with a decimal point
or with an exponent. What is a matter of choice stands in one record, `Layout`.
A NaN has no sign here: it is always written `nan`, also where its sign bit is set
and other formatters write `-nan`.
-/

namespace Lateral

/-- The choices in the written form of a number. With the number read as
`d.ddd * 10 ^ e`, the point is put into place when
`lowestPlain ≤ e < firstScientific`; otherwise an exponent is written. -/
structure Layout where
  lowestPlain : Int
  firstScientific : Int
  exponentDigits : Nat
  notANumber : String
  infinity : String

/-- Numbers from 0.0001 up to 10^16 are written plainly, exponents have a sign and two digits
or more. -/
def Layout.general : Layout where
  lowestPlain := -4
  firstScientific := 16
  exponentDigits := 2
  notANumber := "nan"
  infinity := "inf"

/-- A number in at least `width` digits, with zeros in front. -/
def paddedNumeral (width number : Nat) : String :=
  let numeral := Nat.repr number
  "".pushn '0' (width - numeral.length) ++ numeral

namespace Decimal

/-- Digits with the point behind the first one, or no point when there is one digit. -/
def pointedFirst (digits : String) : String :=
  if digits.length ≤ 1 then digits
  else String.ofList (digits.toList.take 1) ++ "." ++ String.ofList (digits.toList.drop 1)

/-- The sign and digits of an exponent. -/
def exponentText (layout : Layout) (exponent : Int) : String :=
  (if exponent < 0 then "-" else "+") ++ paddedNumeral layout.exponentDigits exponent.natAbs

/-- The digits with the point in its place, `whole` digits before it; zeros fill the places
between the point and the digits. -/
def plainText (digits : String) (whole : Int) : String :=
  if whole ≤ 0 then
    "0." ++ "".pushn '0' (-whole).toNat ++ digits
  else if digits.length ≤ whole.toNat then
    digits.pushn '0' (whole.toNat - digits.length)
  else
    String.ofList (digits.toList.take whole.toNat) ++ "." ++
      String.ofList (digits.toList.drop whole.toNat)

/-- The written form of a decimal number. -/
def text (layout : Layout) (decimal : Decimal) : String :=
  let digits := Nat.repr decimal.digits
  let scientific := decimal.exponent + digits.length - 1
  if layout.lowestPlain ≤ scientific && scientific < layout.firstScientific then
    plainText digits (scientific + 1)
  else
    pointedFirst digits ++ "e" ++ exponentText layout scientific

end Decimal

/-- The written form of a double precision number. -/
def Layout.write (layout : Layout) (number : Float) : String :=
  let signed (sign : Float.Model.UnpackedFloat.Sign) (text : String) : String :=
    match sign with
    | .positive => text
    | .negative => "-" ++ text
  match number.toModel.unpack with
  | .notANumber => layout.notANumber
  | .infinity sign => signed sign layout.infinity
  | .zero sign => signed sign "0"
  | .finite sign mantissa exponent _ =>
    signed sign ((Binary.shortest ⟨mantissa, exponent⟩).text layout)

end Lateral
