import Lateral.Function.Scalar

/-!
# Binary arithmetic

Sum, difference, product and quotient of two numbers. Everything is computed in
double precision; a result type other than `double` cuts the fraction off and
admits 32-bit results only. Division by zero gives null, as a null operand does.
-/

namespace Lateral

/-- The four operations. -/
inductive ArithmeticOp where
  | add
  | sub
  | mul
  | div
  deriving DecidableEq, Repr

namespace ArithmeticOp

/-- The name of the function that performs the operation. -/
def text : ArithmeticOp → String
  | .add => "ADD"
  | .sub => "SUB"
  | .mul => "MUL"
  | .div => "DIV"

/-- The operation on double precision numbers. -/
def apply : ArithmeticOp → Float → Float → Float
  | .add, left, right => left + right
  | .sub, left, right => left - right
  | .mul, left, right => left * right
  | .div, left, right => left / right

/-- Whether the operation divides by zero. -/
def dividesByZero (op : ArithmeticOp) (right : Float) : Bool :=
  op == .div && right == 0

end ArithmeticOp

/-- The 32-bit integer of the given value, if there is one. -/
def int32? (number : Int) : Option Int32 :=
  if Int32.minValue.toInt ≤ number ∧ number ≤ Int32.maxValue.toInt then some (Int32.ofInt number)
  else none

/-- A computed number as a value of the result type. -/
def ofComputed (name : String) (resultType : DataType) (result : Float) : Except Error Value :=
  match resultType with
  | .double => .ok (.double result)
  | _ =>
    match (Binary64.integerPart? result).bind int32? with
    | some number => .ok (.int number)
    | none =>
      .error (.call name (.outOfIntRange (Value.double (Binary64.truncate result)).text))

/-- The operation on two values that are not null. -/
def computeArithmetic (op : ArithmeticOp) (resultType : DataType) (left right : Value) :
    Except Error Value :=
  match left.toDouble?, right.toDouble? with
  | some left, some right =>
    if op.dividesByZero right then .ok .null
    else ofComputed op.text resultType (op.apply left right)
  | _, _ => .error (.call op.text (.unmet .numericArguments))

/-- The operation on a list of arguments, which has to hold two. -/
def invokeArithmetic (op : ArithmeticOp) (resultType : DataType) :
    List Value → Except Error Value
  | [left, right] =>
    if left.isNull || right.isNull then .ok .null
    else computeArithmetic op resultType left right
  | _ => .error (.call op.text (.unmet .twoArguments))

/-- The function that performs an operation and gives results of a type. -/
def ScalarFunction.arithmetic (identity : String) (op : ArithmeticOp) (resultType : DataType) :
    ScalarFunction where
  toSignature := nativeSignature identity op.text resultType
  invoke := invokeArithmetic op resultType

end Lateral
