import Lateral.Expr.Eval
import Lateral.Plan.Basic

/-!
# Execution of plans

The rows of a plan. Before anything runs, every scan is checked to call a table
function. A correlate computes all its left rows and then runs its right input
for each of them in turn; a scan evaluates the operands of its call on the row of
the innermost correlate that is running. Inputs of a scan are never run.
-/

namespace Lateral.Plan

/-- Checks that a scan calls a table function. -/
def prepareScan (call : Expr) : Except Error Unit :=
  match call with
  | .call (.table _) _ _ => .ok ()
  | .call (.scalar function) _ _ => .error (.call function.name .notTable)
  | expression => .error (.noTableFunctionCall expression.text)

/-- Checks every scan that execution can reach, from left to right. -/
def prepare : Plan → Except Error Unit
  | .values .. => .ok ()
  | .project _ input => prepare input
  | .correlate _ left right =>
    match prepare left with
    | .ok () => prepare right
    | .error error => .error error
  | .scan source _ => prepareScan source.call

/-- Admits rows of the expected width only. -/
def checkWidths (function : String) (width : Nat) (rows : List Row) : Except Error (List Row) :=
  match rows.find? fun row => row.length != width with
  | none => .ok rows
  | some row => .error (.call function (.rowWidth row.length width))

/-- The rows that a scan produces, with its call read on a row. -/
def runScan (scan : Scan) (row : Row) : Except Error (List Row) :=
  match scan.call with
  | .call (.table function) operands _ =>
    match Expr.evalAll row operands with
    | .ok arguments =>
      match function.generate arguments with
      | .ok rows => checkWidths function.name scan.schema.length rows
      | .error error => .error error
    | .error error => .error error
  | .call (.scalar function) _ _ => .error (.call function.name .notTable)
  | expression => .error (.noTableFunctionCall expression.text)

/-- A left row with as many nulls behind it as the right schema has fields. -/
def padded (leftRow : Row) (rightWidth : Nat) : Row :=
  leftRow ++ List.replicate rightWidth .null

/-- The rows of a correlate for one left row. -/
def joinRow (join : JoinKind) (rightWidth : Nat) (leftRow : Row) (rightRows : List Row) :
    List Row :=
  match join, rightRows with
  | .left, [] => [padded leftRow rightWidth]
  | _, rightRows => rightRows.map (leftRow ++ ·)

/-- The rows of a correlate for a list of left rows. The right side is run for each of them in
turn until it fails. -/
def joinRows (join : JoinKind) (rightWidth : Nat) (runRight : Row → Except Error (List Row)) :
    List Row → Except Error (List Row)
  | [] => .ok []
  | leftRow :: rest =>
    match runRight leftRow with
    | .ok rightRows =>
      match joinRows join rightWidth runRight rest with
      | .ok rows => .ok (joinRow join rightWidth leftRow rightRows ++ rows)
      | .error error => .error error
    | .error error => .error error

/-- The expressions of a projection on each row of a list. -/
def projectRows (expressions : List Expr) : List Row → Except Error (List Row)
  | [] => .ok []
  | row :: rest =>
    match Expr.evalAll row expressions with
    | .ok output =>
      match projectRows expressions rest with
      | .ok rows => .ok (output :: rows)
      | .error error => .error error
    | .error error => .error error

/-- The rows of a plan inside the correlate that runs with the given left row, or outside of any
correlate, where scans read a row without fields. -/
def run (correlationRow : Option Row) : Plan → Except Error (List Row)
  | .values _ rows => .ok rows
  | .project projection input =>
    match run correlationRow input with
    | .ok rows => projectRows projection.expressions rows
    | .error error => .error error
  | .correlate correlation left right =>
    match run correlationRow left with
    | .ok leftRows =>
      joinRows correlation.join right.schema.length (fun row => run (some row) right) leftRows
    | .error error => .error error
  | .scan source _ => runScan source (correlationRow.getD [])

end Lateral.Plan
