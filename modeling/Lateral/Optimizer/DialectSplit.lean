import Lateral.Expr.Extract
import Lateral.Optimizer.Rule
import Lateral.Plan.Merge
import Lateral.Plan.Validate

/-!
# Splitting a correlate by dialect

One operator can not evaluate calls of both dialects. Where the operands of a
table function hold calls foreign to it, the scan is freed of them in three
steps:

- a projection on the left input passes the left row on and computes each foreign
  call as a field behind it (`widening`),
- the scan reads these fields in place of the calls, and projections above the
  scan become a single one (`RightSide.withCall`),
- a projection on top of the correlate leaves the added fields out again
  (`narrowing`).

A left row of two fields and the python call `f(abs($0), $1)` become the left
fields `$0`, `$1`, `abs($0)`, the call `f($2, $1)`, and a top projection that
leaves out `$2`.
-/

namespace Lateral

/-- The dialect that is foreign to a function of the given one. -/
def Dialect.other : Dialect → Dialect
  | .native => .python
  | .python => .native

/-- The right side of a correlate that ends in a scan. -/
inductive RightSide where
  | plain (scan : Scan) (inputs : List Plan)
  | wrapped (projection : Projection) (below : Plan) (scan : Scan) (inputs : List Plan)

namespace RightSide

/-- The scan of a right side. -/
def scan : RightSide → Scan
  | .plain scan _ => scan
  | .wrapped _ _ scan _ => scan

/-- The right side that a right input is: a scan, or projections over a scan. -/
def ofPlan? : Plan → Option RightSide
  | .scan scan inputs => some (.plain scan inputs)
  | .project projection below =>
    below.scanBelow?.map fun found => .wrapped projection below found.1 found.2
  | .values .. => none
  | .correlate .. => none

/-- The right side with another call in its scan, and its projections merged into one. -/
def withCall (call : Expr) : RightSide → Except Error Plan
  | .plain scan inputs => .ok (.scan { scan with call } inputs)
  | .wrapped projection below scan inputs =>
    (projection.merged below).map fun merged => .project merged (.scan { scan with call } inputs)

end RightSide

namespace DialectSplit

/-- The name under which the rule reports. -/
def ruleName : String :=
  "PythonCorrelateSplitRule"

/-- The error of a correlate that can not be split. -/
def refusal {α : Type} (fault : SplitFault) : Except Error α :=
  .error (.split ruleName fault)

/-- The rule applies to a correlate over a scan whose call is of one dialect and has a call of
the other in it. -/
def applies : Plan → Bool
  | .correlate _ _ right =>
    match RightSide.ofPlan? right with
    | some side =>
      match side.scan.call with
      | .call function operands type =>
        (Expr.call function operands type).hasCallOf function.dialect.other
      | _ => false
    | none => false
  | _ => false

/-- The operands of a table function without their foreign calls, which become fields behind
those of a left row of the given width, and the foreign calls. -/
def splitOperands (width : Nat) (function : Function) (operands : List Expr) :
    List Expr × List Expr :=
  (Extraction.behind width function.dialect.other).extractAll [] operands

/-- The names of extracted fields before they are made distinct. -/
def extractedNames (count : Nat) : List String :=
  (List.range count).map fun position => "f" ++ toString position

/-- The names of a left row with extracted fields behind it. The names of the left row must not
change. -/
def widenedNames (caseRule : CaseRule) (row : Schema) (count : Nat) :
    Except Error (List String) :=
  let names := caseRule.uniquify (row.names ++ extractedNames count)
  match (row.names.zip names).find? fun pair => pair.1 != pair.2 with
  | some (name, renamed) => refusal (.renamedField name renamed row)
  | none => .ok names

/-- The projection that computes the extracted calls behind the fields of the left row. -/
def widening (caseRule : CaseRule) (row : Schema) (extracted : List Expr) :
    Except Error Projection :=
  (widenedNames caseRule row extracted.length).map fun names =>
    ⟨Expr.fieldRefs row ++ extracted, names⟩

/-- The projection that drops `count` fields behind the first `width` ones of a row and gives the
others the names of the expected row. -/
def narrowing (row : Schema) (width count : Nat) (expected : Schema) : Projection where
  expressions := (Expr.fieldRefs row).take width ++ (Expr.fieldRefs row).drop (width + count)
  names := expected.names

/-- Puts a split correlate together: the left input widened by the extracted calls, the new right
side valid against it, and a projection on top that gives the expected row. -/
def assemble (settings : Settings) (correlation : Correlation) (left : Plan)
    (extracted : List Expr) (newRight : Plan) (expected : Schema) : Except Error Plan := do
  let widened ← widening settings.caseRule left.schema extracted
  newRight.validate settings.caseRule (some widened.schema)
  let correlate : Plan := .correlate correlation (.project widened left) newRight
  let top := narrowing correlate.schema left.schema.length extracted.length expected
  if top.schema = expected then .ok (.project top correlate)
  else refusal (.changedRow top.schema expected)

/-- The notice of a table function that gives away its foreign calls. -/
def notice (function : Function) (call : Expr) (count : Nat) : LogEntry where
  level := .debug
  message := ruleName ++ ": " ++ function.dialect.text ++ " table function " ++ call.text
    ++ " gives away " ++ toString count ++ " calls"

/-- Splits a correlate over a right side whose scan has the given call. -/
def splitCall (settings : Settings) (correlation : Correlation) (left right : Plan)
    (side : RightSide) (function : Function) (operands : List Expr) (type : DataType) : Attempt :=
  if correlation.caseRule = settings.caseRule then
    let split := splitOperands left.schema.length function operands
    match side.withCall (.call function split.1 type) with
    | .ok newRight =>
      { log := [notice function side.scan.call split.2.length]
        outcome := (assemble settings correlation left split.2 newRight
          (correlation.schema left.schema right.schema)).map some }
    | .error error => ⟨[], .error error⟩
  else
    ⟨[], refusal (.caseMismatch correlation.caseRule settings.caseRule)⟩

/-- Splits a correlate by dialect. -/
def transform (settings : Settings) : Plan → Attempt
  | .correlate correlation left right =>
    match RightSide.ofPlan? right with
    | some side =>
      match side.scan.call with
      | .call function operands type =>
        splitCall settings correlation left right side function operands type
      | _ => ⟨[], refusal .noTableFunctionCall⟩
    | none => ⟨[], refusal .noTableFunctionCall⟩
  | _ => ⟨[], refusal .noCorrelate⟩

/-- The rule that splits correlates by dialect. -/
def rule : Rule where
  name := ruleName
  operator := .correlate
  applies _ node := applies node
  transform := transform

end DialectSplit

end Lateral
