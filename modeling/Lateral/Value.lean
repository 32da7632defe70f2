import Lateral.Number.Binary64
import Lateral.Number.Layout

/-!
# Values and types

A field of a row holds a 32-bit integer, a double precision number, a text, or
nothing at all. Types are labels of fields and expressions: a label converts
nothing, and a value need not be of the type that its field declares.
-/

namespace Lateral

/-- The types of fields and expressions. -/
inductive DataType where
  | int
  | double
  | string
  | null
  deriving DecidableEq, Repr, Inhabited

namespace DataType

/-- The name of a type. -/
def text : DataType → String
  | .int => "int"
  | .double => "double"
  | .string => "string"
  | .null => "null"

/-- Bytes taken by a value of the type, zero where values have no fixed size. -/
def size : DataType → Nat
  | .int => 4
  | .double => 8
  | .string => 0
  | .null => 0

/-- Texts are the only values of varying size. -/
def isVariableSize : DataType → Bool
  | .string => true
  | _ => false

end DataType

/-- A single run-time value. -/
inductive Value where
  | null
  | int (number : Int32)
  | double (number : Float)
  | string (text : String)
  deriving DecidableEq, Inhabited

/-- The values of one row, field by field. -/
abbrev Row := List Value

namespace Value

/-- Whether the value is missing. -/
def isNull : Value → Bool
  | .null => true
  | _ => false

/-- The type that a value has by itself. -/
def dataType : Value → DataType
  | .null => .null
  | .int _ => .int
  | .double _ => .double
  | .string _ => .string

/-- The value as a double precision number, for the two kinds of number. -/
def toDouble? : Value → Option Float
  | .int number => some (Binary64.ofInt number.toInt)
  | .double number => some number
  | .null => none
  | .string _ => none

/-- The text of a value as a table shows it. -/
def text : Value → String
  | .null => "NULL"
  | .int number => toString number.toInt
  | .double number => Layout.general.write number
  | .string text => text

/-- The text of a value as a literal: texts stand in single quotes. -/
def literal : Value → String
  | .string text => "'" ++ text ++ "'"
  | value => value.text

/-- Whether two values compare as equal. Kinds never mix, and doubles compare as numbers: a NaN
differs from itself and the two zeros agree. -/
def same : Value → Value → Bool
  | .null, .null => true
  | .int left, .int right => left == right
  | .double left, .double right => left == right
  | .string left, .string right => left == right
  | _, _ => false

end Value

end Lateral
