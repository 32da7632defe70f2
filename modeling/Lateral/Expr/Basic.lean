import Lateral.Function.Basic

/-!
# Expressions

Scalar expressions over the fields of one row: references to fields by position,
literals, and calls of functions on operands. Each node carries the type that it
declares.
-/

namespace Lateral

/-- An expression over the fields of a row. -/
inductive Expr where
  | ref (index : Nat) (type : DataType)
  | const (value : Value) (type : DataType)
  | call (function : Function) (operands : List Expr) (type : DataType)

namespace Expr

/-- The type that the outermost node declares. -/
def type : Expr → DataType
  | .ref _ type => type
  | .const _ type => type
  | .call _ _ type => type

/-- A literal of the type that its value has by itself. -/
def literal (value : Value) : Expr :=
  .const value value.dataType

/-- A call of the type that its function gives. -/
def apply (function : Function) (operands : List Expr) : Expr :=
  .call function operands function.resultType

/-- Whether the outermost node is a call. -/
def isCall : Expr → Bool
  | .call .. => true
  | _ => false

mutual

/-- The written form of an expression. -/
def text : Expr → String
  | .ref index _ => "$" ++ toString index
  | .const value _ => value.literal
  | .call function operands _ => function.name ++ "(" ++ Text.join ", " (texts operands) ++ ")"

/-- The written forms of a list of expressions. -/
def texts : List Expr → List String
  | [] => []
  | expression :: rest => expression.text :: texts rest

end

mutual

/-- The nodes of an expression, each before its operands. -/
def nodes : Expr → List Expr
  | .ref index type => [.ref index type]
  | .const value type => [.const value type]
  | .call function operands type => .call function operands type :: nodesAll operands

/-- The nodes of a list of expressions, one expression behind the other. -/
def nodesAll : List Expr → List Expr
  | [] => []
  | expression :: rest => expression.nodes ++ nodesAll rest

end

/-- The index that a node refers to, if it is a reference. -/
def referenced? : Expr → Option Nat
  | .ref index _ => some index
  | _ => none

/-- The indices of all references in an expression, from left to right. -/
def references (expression : Expr) : List Nat :=
  expression.nodes.filterMap referenced?

mutual

/-- Whether two expressions agree node by node: the same functions, field indices, values that
compare as equal, and the same declared types. -/
def same : Expr → Expr → Bool
  | .ref left leftType, .ref right rightType => left == right && leftType == rightType
  | .const left leftType, .const right rightType => left.same right && leftType == rightType
  | .call left leftOperands leftType, .call right rightOperands rightType =>
    left.identity == right.identity && leftType == rightType
      && sameAll leftOperands rightOperands
  | _, _ => false

/-- Whether two lists of expressions are equally long and agree place by place. -/
def sameAll : List Expr → List Expr → Bool
  | [], [] => true
  | left :: lefts, right :: rights => left.same right && sameAll lefts rights
  | _, _ => false

end

/-- A reference to every field of a row, in order, the first of them at `start`. -/
def fieldRefsFrom (start : Nat) : Schema → List Expr
  | [] => []
  | field :: rest => .ref start field.type :: fieldRefsFrom (start + 1) rest

/-- A reference to every field of a row, in order. -/
def fieldRefs (row : Schema) : List Expr :=
  fieldRefsFrom 0 row

/-- A reference to one field of a row. -/
def fieldRef (index : Nat) (row : Schema) : Except Error Expr :=
  match row[index]? with
  | some field => .ok (.ref index field.type)
  | none => .error (.noSuchField index row)

theorem nodesAll_eq_flatMap (expressions : List Expr) :
    nodesAll expressions = expressions.flatMap nodes := by
  induction expressions with
  | nil => rfl
  | cons expression rest inductionHypothesis => simp [nodesAll, inductionHypothesis]

/-- An expression is its own first node. -/
theorem mem_nodes_self (expression : Expr) : expression ∈ expression.nodes := by
  cases expression <;> simp [nodes]

/-- The nodes of an operand are nodes of the call. -/
theorem mem_nodes_call_of_operand {function : Function} {operands : List Expr} {type : DataType}
    {operand node : Expr} (member : operand ∈ operands) (inside : node ∈ operand.nodes) :
    node ∈ (Expr.call function operands type).nodes := by
  rw [nodes, nodesAll_eq_flatMap]
  exact List.mem_cons_of_mem _ (List.mem_flatMap.mpr ⟨operand, member, inside⟩)

@[simp] theorem length_fieldRefsFrom (start : Nat) (row : Schema) :
    (fieldRefsFrom start row).length = row.length := by
  induction row generalizing start with
  | nil => rfl
  | cons field rest inductionHypothesis => simp [fieldRefsFrom, inductionHypothesis]

@[simp] theorem length_fieldRefs (row : Schema) : (fieldRefs row).length = row.length :=
  length_fieldRefsFrom 0 row

end Expr

end Lateral
