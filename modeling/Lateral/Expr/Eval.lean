import Lateral.Expr.Basic

/-!
# Evaluation of expressions

The value of an expression on a row. Operands are evaluated from left to right,
the first failure ends the evaluation, and a call of a table function fails
before its operands are looked at.
-/

namespace Lateral.Expr

mutual

/-- The value of an expression on a row. -/
def eval (row : Row) : Expr → Except Error Value
  | .ref index _ =>
    match row[index]? with
    | some value => .ok value
    | none => .error (.shortRow index row.length)
  | .const value _ => .ok value
  | .call (.table function) _ _ => .error (.call function.name .notScalar)
  | .call (.scalar function) operands _ =>
    match evalAll row operands with
    | .ok arguments => function.invoke arguments
    | .error error => .error error

/-- The values of a list of expressions on a row, or the first failure. -/
def evalAll (row : Row) : List Expr → Except Error (List Value)
  | [] => .ok []
  | expression :: rest =>
    match eval row expression with
    | .ok value =>
      match evalAll row rest with
      | .ok values => .ok (value :: values)
      | .error error => .error error
    | .error error => .error error

end

end Lateral.Expr
