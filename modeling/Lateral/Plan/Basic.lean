import Lateral.Expr.Basic
import Lateral.Plan.ColumnSet

/-!
# Plans

Logical plans: literal relations, projections, correlates that run their right
input once for each left row, and scans of a table function. The schema of a
literal relation and of a scan is given; that of a projection and of a correlate
follows from what is below.
-/

namespace Lateral

/-- What a correlate does with a left row that has no right rows: drop it, or keep it once with
nulls in place of the right fields. -/
inductive JoinKind where
  | inner
  | left
  deriving DecidableEq, Repr, Inhabited

/-- The name of a join kind. -/
def JoinKind.text : JoinKind → String
  | .inner => "INNER"
  | .left => "LEFT"

/-- What a correlate has besides its inputs: a number, the left fields that its right input
reads, its join kind, and the rule by which it names its fields. -/
structure Correlation where
  number : Int32
  required : ColumnSet
  join : JoinKind
  caseRule : CaseRule
  deriving DecidableEq, Repr

/-- The computed fields of a projection and their names. -/
structure Projection where
  expressions : List Expr
  names : List String

/-- Origin of a field of a scan in a field of one of its inputs. -/
structure ColumnMapping where
  output : Nat
  input : Nat
  field : Nat
  derived : Bool
  deriving DecidableEq, Repr

/-- What a scan of a table function has besides its inputs. -/
structure Scan where
  call : Expr
  element : DataType
  schema : Schema
  mappings : List ColumnMapping

/-- A logical plan. -/
inductive Plan where
  | values (schema : Schema) (rows : List Row)
  | project (projection : Projection) (input : Plan)
  | correlate (correlation : Correlation) (left right : Plan)
  | scan (scan : Scan) (inputs : List Plan)

/-- The operators of a plan. -/
inductive Operator where
  | values
  | projection
  | correlate
  | tableFunctionScan
  deriving DecidableEq, Repr

/-- The name of an operator. -/
def Operator.text : Operator → String
  | .values => "Values"
  | .projection => "Projection"
  | .correlate => "Correlate"
  | .tableFunctionScan => "TableFunctionScan"

namespace Projection

/-- The fields from position `start` on: an expression without a name is called `EXPR$` and its
position. -/
def fieldsFrom : (start : Nat) → List Expr → List String → Schema
  | _, [], _ => []
  | start, expression :: rest, [] =>
    ⟨"EXPR$" ++ toString start, expression.type⟩ :: fieldsFrom (start + 1) rest []
  | start, expression :: rest, name :: names =>
    ⟨name, expression.type⟩ :: fieldsFrom (start + 1) rest names

/-- The schema of the rows that a projection computes. -/
def schema (projection : Projection) : Schema :=
  fieldsFrom 0 projection.expressions projection.names

/-- The one-line text of a projection. -/
def text (projection : Projection) : String :=
  "Projection(exprs=[" ++ Text.join ", " (projection.expressions.map Expr.text) ++ "], names=["
    ++ Text.join ", " projection.names ++ "])"

end Projection

namespace Correlation

/-- The schema of a left row with a right row behind it. Names are made distinct, so a right name
that clashes gets a number. -/
def schema (correlation : Correlation) (left right : Schema) : Schema :=
  let row : Schema := left ++ right
  List.zipWith Field.mk (correlation.caseRule.uniquify row.names) row.types

/-- The one-line text of a correlate. -/
def text (correlation : Correlation) : String :=
  "Correlate(correlation=$cor" ++ toString correlation.number.toInt ++ ", required=["
    ++ Text.join ", " (correlation.required.indices.map fun index => toString index)
    ++ "], join=" ++ correlation.join.text ++ ")"

end Correlation

/-- The one-line text of a scan. -/
def Scan.text (scan : Scan) : String :=
  "TableFunctionScan(call=" ++ scan.call.text ++ ", row=" ++ scan.schema.text ++ ")"

namespace Plan

/-- The operator at the root. -/
def operator : Plan → Operator
  | .values .. => .values
  | .project .. => .projection
  | .correlate .. => .correlate
  | .scan .. => .tableFunctionScan

/-- The schema of the rows of a plan. -/
def schema : Plan → Schema
  | .values schema _ => schema
  | .project projection _ => projection.schema
  | .correlate correlation left right => correlation.schema left.schema right.schema
  | .scan source _ => source.schema

/-- The inputs of the root, in order. -/
def children : Plan → List Plan
  | .values .. => []
  | .project _ input => [input]
  | .correlate _ left right => [left, right]
  | .scan _ inputs => inputs

/-- The root over other inputs. An operator with a fixed number of inputs takes the first ones,
and keeps its own when there are too few. -/
def withChildren : Plan → List Plan → Plan
  | .project projection _, input :: _ => .project projection input
  | .correlate correlation _ _, left :: right :: _ => .correlate correlation left right
  | .scan source _, inputs => .scan source inputs
  | plan, _ => plan

/-- The one-line text of the root. -/
def text : Plan → String
  | .values schema rows =>
    "Values(rows=" ++ toString rows.length ++ ", row=" ++ schema.text ++ ")"
  | .project projection _ => projection.text
  | .correlate correlation _ _ => correlation.text
  | .scan source _ => source.text

/-- A root over its own inputs is the plan itself. -/
@[simp] theorem withChildren_children (plan : Plan) : plan.withChildren plan.children = plan := by
  cases plan <;> rfl

end Plan

end Lateral
