import Lateral.Error

/-!
# Functions

Scalar functions give one value for their arguments, table functions a list of
rows. A function runs in one of two dialects, and an operator evaluates calls of
a single dialect only. Functions have an identity of their own: two functions of
the same name and type are different functions unless they have the same
identity.
-/

namespace Lateral

/-- The runtime that evaluates a function. -/
inductive Dialect where
  | native
  | python
  deriving DecidableEq, Repr, Inhabited

/-- The name of a dialect. -/
def Dialect.text : Dialect → String
  | .native => "native"
  | .python => "python"

/-- What is known of a function without calling it. The result type of a table function is the
type of its elements. -/
structure Signature where
  identity : String
  name : String
  dialect : Dialect
  resultType : DataType
  deriving DecidableEq, Repr

/-- A function from argument values to a value. -/
structure ScalarFunction extends Signature where
  invoke : List Value → Except Error Value

/-- A function from argument values to rows of the declared schema. -/
structure TableFunction extends Signature where
  schema : Schema
  generate : List Value → Except Error (List Row)

/-- Puts the generated rows behind rows that are there already. -/
def TableFunction.generateBehind (function : TableFunction) (rows : List Row)
    (arguments : List Value) : Except Error (List Row) :=
  (function.generate arguments).map (rows ++ ·)

/-- A function of either sort. -/
inductive Function where
  | scalar (function : ScalarFunction)
  | table (function : TableFunction)

namespace Function

/-- What is known of the function without calling it. -/
def signature : Function → Signature
  | .scalar function => function.toSignature
  | .table function => function.toSignature

/-- The name under which calls show the function. -/
def name (function : Function) : String :=
  function.signature.name

/-- The identity that tells the function from others. -/
def identity (function : Function) : String :=
  function.signature.identity

/-- The runtime that evaluates the function. -/
def dialect (function : Function) : Dialect :=
  function.signature.dialect

/-- The type of a call of the function. -/
def resultType (function : Function) : DataType :=
  function.signature.resultType

end Function

end Lateral
