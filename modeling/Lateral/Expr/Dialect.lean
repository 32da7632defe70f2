import Lateral.Expr.Basic

/-!
# Dialects in expressions

Whether an expression is a call of a dialect, or has one anywhere in it.
References and literals belong to no dialect.
-/

namespace Lateral.Expr

/-- Whether the outermost node is a call of the dialect. -/
def isCallOf (dialect : Dialect) : Expr → Bool
  | .call function _ _ => function.dialect == dialect
  | _ => false

mutual

/-- Whether some node is a call of the dialect. -/
def hasCallOf (dialect : Dialect) : Expr → Bool
  | .call function operands _ => function.dialect == dialect || anyHasCallOf dialect operands
  | _ => false

/-- Whether some expression of a list has a call of the dialect. -/
def anyHasCallOf (dialect : Dialect) : List Expr → Bool
  | [] => false
  | expression :: rest => expression.hasCallOf dialect || anyHasCallOf dialect rest

end

end Lateral.Expr
