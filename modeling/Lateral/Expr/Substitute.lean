import Lateral.Expr.Basic

/-!
# Substitution

Replacing the references of an expression by expressions, which inlines a lower
list of computed fields into an expression above it.
-/

namespace Lateral.Expr

mutual

/-- Replaces each reference by the expression at its index. A reference without one is an
error. -/
def substitute (fields : List Expr) : Expr → Except Error Expr
  | .ref index _ =>
    match fields[index]? with
    | some expression => .ok expression
    | none => .error (.uncoveredReference index fields.length)
  | .const value type => .ok (.const value type)
  | .call function operands type =>
    match substituteAll fields operands with
    | .ok operands => .ok (.call function operands type)
    | .error error => .error error

/-- Substitutes in each expression of a list, or gives the first error. -/
def substituteAll (fields : List Expr) : List Expr → Except Error (List Expr)
  | [] => .ok []
  | expression :: rest =>
    match substitute fields expression with
    | .ok expression =>
      match substituteAll fields rest with
      | .ok rest => .ok (expression :: rest)
      | .error error => .error error
    | .error error => .error error

end

end Lateral.Expr
