import Lateral.CommandLine.Options
import Lateral.Function.Catalog
import Lateral.Optimizer.Basic
import Lateral.Optimizer.DialectSplit
import Lateral.Plan.Explain
import Lateral.Relation

/-!
# The demonstration program

Shows a small plan and its rows, optimizes the plan, and shows what became of
it. The plan is one that the optimizer splits: for each of three left rows a
python function repeats a word as often as the native absolute value of a number
says.
-/

namespace Lateral.Demo

/-- What a run of the program leaves: its exit code, its output, the log file it opened if it
got that far, and the log. -/
structure Session where
  exitCode : UInt32
  output : String
  logFile : Option String
  log : List LogEntry

/-- How the program is called. -/
def usage : String :=
  "usage: zweig [--case-insensitive] [--max-iterations N] [--log-file PATH]\n"

/-- A text as many times as a number says, one row each. -/
def repeatWord : List Value → Except Error (List Row)
  | [.int count, .string word] => .ok (List.replicate count.toInt.toNat [.string word])
  | _ => .error (.raised .executionError "REPEAT_WORD need (int, string)")

/-- The function `REPEAT_WORD`, run by the python runtime. -/
def repeatWordFunction : TableFunction where
  identity := "REPEAT_WORD"
  name := "REPEAT_WORD"
  dialect := .python
  resultType := .string
  schema := [⟨"word", .string⟩]
  generate := repeatWord

/-- The native functions and `REPEAT_WORD`. -/
def catalog : Except Error Catalog :=
  Catalog.empty.registerNatives.register (.table repeatWordFunction)

/-- The schema of the left rows. -/
def leftSchema : Schema :=
  [⟨"x", .int⟩, ⟨"y", .string⟩]

/-- The left rows. -/
def leftRows : List Row :=
  [[.int (-2), .string "ab"], [.int 0, .string "cd"], [.int 3, .string "ef"]]

/-- The plan that is shown. -/
def plan (caseRule : CaseRule) : Except Error Plan := do
  let catalog ← catalog
  let abs ← catalog.findScalar "ABS"
  let repeatWord ← catalog.findTable "REPEAT_WORD"
  let x ← Expr.fieldRef 0 leftSchema
  let y ← Expr.fieldRef 1 leftSchema
  let scan : Scan :=
    { call := .apply (.table repeatWord) [.apply (.scalar abs) [x], y]
      element := repeatWord.resultType
      schema := repeatWord.schema
      mappings := [] }
  let correlation : Correlation := ⟨0, .ofList [0, 1], .inner, caseRule⟩
  return .correlate correlation (.values leftSchema leftRows) (.scan scan [])

/-- The explanation of a plan under a title. -/
def titled (title : String) (plan : Plan) : String :=
  title ++ ":\n" ++ plan.explain ++ "\n"

/-- The rows of a plan as a table with their number below. -/
def rowsText (plan : Plan) : Except Error String :=
  plan.execute.map fun relation =>
    relation.table ++ toString relation.rows.length ++ " rows\n\n"

/-- A session that ends with an error behind what was put out so far. -/
def aborted (output : String) (logFile : Option String) (log : List LogEntry) (error : Error) :
    Session :=
  ⟨1, output ++ error.message ++ "\n", logFile, log⟩

/-- Shows the optimized plan behind what was put out so far. -/
def showOptimized (options : Options) (output : String) (plan : Plan) : Session :=
  let run := (Optimizer.create [DialectSplit.rule] options.settings).optimize plan
  match run.outcome with
  | .error error => aborted output (some options.logFile) run.log error
  | .ok optimized =>
    let output := output ++ titled "Optimized plan" optimized
    match rowsText optimized with
    | .error error => aborted output (some options.logFile) run.log error
    | .ok rows => ⟨0, output ++ rows, some options.logFile, run.log⟩

/-- Shows the plan, and goes on with the optimized one. -/
def showPlan (options : Options) (plan : Plan) : Session :=
  let output := titled "Original plan" plan
  match rowsText plan with
  | .error error => aborted output (some options.logFile) [] error
  | .ok rows => showOptimized options (output ++ rows) plan

/-- The session on a command line. -/
def session (arguments : List String) : Session :=
  match Options.standard.parse arguments with
  | (_, .failed error) => ⟨1, error.message ++ "\n" ++ usage, none, []⟩
  | (options, .ok) =>
    match plan options.settings.caseRule with
    | .error error => aborted "" (some options.logFile) [] error
    | .ok plan => showPlan options plan

end Lateral.Demo
