import Lateral.Function.Basic
import Lateral.Text.Case

/-!
# Native scalar functions

Absolute value, letter case and concatenation. A null argument gives null,
except in a concatenation, which leaves nulls out.
-/

namespace Lateral

/-- The signature of a native function. -/
def nativeSignature (identity name : String) (resultType : DataType) : Signature where
  identity := identity
  name := name
  dialect := .native
  resultType := resultType

/-- The absolute value of an integer. The smallest integer has none. -/
def absoluteValue (name : String) : List Value → Except Error Value
  | [.null] => .ok .null
  | [.int number] =>
    if number = Int32.minValue then .error (.call name .smallestInt)
    else .ok (.int (if number < 0 then -number else number))
  | [_] => .error (.call name (.unmet .intArgument))
  | _ => .error (.call name (.unmet .oneArgument))

/-- Applies a map of texts to a single text. -/
def mapText (name : String) (transform : String → String) : List Value → Except Error Value
  | [.null] => .ok .null
  | [.string text] => .ok (.string (transform text))
  | [_] => .error (.call name (.unmet .stringArgument))
  | _ => .error (.call name (.unmet .oneArgument))

/-- The texts of all arguments that are not null, one behind the other. -/
def concatenation (arguments : List Value) : String :=
  Text.join "" ((arguments.filter fun value => !value.isNull).map Value.text)

namespace ScalarFunction

/-- The function `ABS`: the absolute value of an integer. -/
def abs (identity : String) : ScalarFunction where
  toSignature := nativeSignature identity "ABS" .int
  invoke := absoluteValue "ABS"

/-- The function `TO_UPPER`: a text in capital letters. -/
def toUpper (identity : String) : ScalarFunction where
  toSignature := nativeSignature identity "TO_UPPER" .string
  invoke := mapText "TO_UPPER" Text.upper

/-- The function `TO_LOWER`: a text in small letters. -/
def toLower (identity : String) : ScalarFunction where
  toSignature := nativeSignature identity "TO_LOWER" .string
  invoke := mapText "TO_LOWER" Text.lower

/-- The function `CONCAT`: the texts of the arguments in a row. -/
def concat (identity : String) : ScalarFunction where
  toSignature := nativeSignature identity "CONCAT" .string
  invoke arguments := .ok (.string (concatenation arguments))

end ScalarFunction

end Lateral
