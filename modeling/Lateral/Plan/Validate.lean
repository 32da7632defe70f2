import Lateral.Plan.Basic

/-!
# Validation of plans

A plan is valid when every reference lies within the row that it is evaluated on
and every derived schema has distinct names. Expressions of a projection read the
row of its input. The call of a scan reads the correlation row, the row of the
left input of the innermost correlate whose right side holds the scan; outside of
any correlate it may read nothing.
-/

namespace Lateral.Plan

/-- The first fault in the widths of literal rows. -/
def rowWidthFault? (schema : Schema) (rows : List Row) : Option PlanFault :=
  (rows.find? fun row => row.length != schema.length).map fun row =>
    .rowWidth row.length schema.length

/-- The first reference of an expression that lies outside of a row. -/
def danglingFault? (row : Schema) (expression : Expr) : Option PlanFault :=
  (expression.references.find? fun index => row.length ≤ index).map fun index =>
    .danglingReference expression.text index row

/-- The first name that making the names distinct would change. -/
def duplicateFault? (caseRule : CaseRule) (schema : Schema) : Option PlanFault :=
  ((schema.names.zip (caseRule.uniquify schema.names)).find? fun pair => pair.1 != pair.2).map
    fun pair => .duplicateName pair.1

/-- The fault of a projection without a name for each expression, or with more names. -/
def nameCountFault? (projection : Projection) : Option PlanFault :=
  if projection.names.length = projection.expressions.length then none
  else some (.nameCount projection.names.length projection.expressions.length)

/-- The first required column that the left row does not have. -/
def requiredFault? (columns : ColumnSet) (row : Schema) : Option PlanFault :=
  (columns.indices.find? fun index => row.length ≤ index).map fun index =>
    .missingRequired index row

/-- The first fault of the root by itself, its inputs left aside. -/
def rootFault? (caseRule : CaseRule) (correlationRow : Option Schema) :
    Plan → Option PlanFault
  | .values schema rows => rowWidthFault? schema rows
  | .project projection input =>
    (nameCountFault? projection).or <|
      (projection.expressions.findSome? (danglingFault? input.schema)).or <|
        duplicateFault? caseRule projection.schema
  | .correlate correlation left right =>
    (requiredFault? correlation.required left.schema).or <|
      duplicateFault? caseRule (correlation.schema left.schema right.schema)
  | .scan source _ => danglingFault? (correlationRow.getD []) source.call

/-- Accepts a root without a fault. -/
def validateRoot (caseRule : CaseRule) (correlationRow : Option Schema) (plan : Plan) :
    Except Error Unit :=
  match rootFault? caseRule correlationRow plan with
  | none => .ok ()
  | some fault => .error (.plan plan.text fault)

mutual

/-- Accepts a plan without a fault, or gives the first one: the root before its inputs, and
the inputs in order. -/
def validate (caseRule : CaseRule) (correlationRow : Option Schema) : Plan → Except Error Unit
  | .values schema rows => validateRoot caseRule correlationRow (.values schema rows)
  | .project projection input => do
    validateRoot caseRule correlationRow (.project projection input)
    validate caseRule correlationRow input
  | .correlate correlation left right => do
    validateRoot caseRule correlationRow (.correlate correlation left right)
    validate caseRule correlationRow left
    validate caseRule (some left.schema) right
  | .scan source inputs => do
    validateRoot caseRule correlationRow (.scan source inputs)
    validateAll caseRule correlationRow inputs

/-- Accepts a list of plans without a fault, or gives the first one. -/
def validateAll (caseRule : CaseRule) (correlationRow : Option Schema) :
    List Plan → Except Error Unit
  | [] => .ok ()
  | plan :: rest => do
    validate caseRule correlationRow plan
    validateAll caseRule correlationRow rest

end

end Lateral.Plan
