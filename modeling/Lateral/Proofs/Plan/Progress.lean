import Lateral.Function.Scalar
import Lateral.Proofs.Plan.Execution

/-!
# Progress of valid plans

A valid plan never reads behind the end of a row: whenever it fails to execute, a
function that it calls is to blame (`blames_of_execute_error`). So a valid plan
executes when its functions are of the right sort and give results on all arguments
(`execute_valid`). The invariant that carries the proofs is that the row of the
correlate that runs is as wide as the correlation row that the plan is valid against.
-/

namespace Lateral

/-- A call in an expression can fail with the error: it is a call of a table function, or its
function fails on some arguments. -/
inductive Expr.Blames (expression : Expr) : Error → Prop where
  | notScalar {function : TableFunction} {operands : List Expr} {type : DataType}
      (isCall : .call (.table function) operands type ∈ expression.nodes) :
      Blames expression (.call function.name .notScalar)
  | invoke {function : ScalarFunction} {operands : List Expr} {type : DataType}
      {arguments : List Value} {error : Error}
      (isCall : .call (.scalar function) operands type ∈ expression.nodes)
      (fails : function.invoke arguments = .error error) : Blames expression error

namespace Expr

/-- An operand of a call is to blame for what it is to blame for by itself. -/
theorem Blames.of_operand {function : Function} {operands : List Expr} {type : DataType}
    {operand : Expr} {error : Error} (blames : operand.Blames error) (member : operand ∈ operands) :
    (Expr.call function operands type).Blames error := by
  cases blames with
  | notScalar isCall => exact .notScalar (mem_nodes_call_of_operand member isCall)
  | invoke isCall fails => exact .invoke (mem_nodes_call_of_operand member isCall) fails

mutual

/-- Where an expression stays within the row and fails on it, one of its calls is to blame. -/
theorem blames_of_eval_error {row : Row} {error : Error} : (expression : Expr) →
    (∀ index ∈ expression.references, index < row.length) →
      eval row expression = .error error → expression.Blames error
  | .ref index type, inside, failed => by
      have below : index < row.length := inside index (by simp)
      simp [eval, below] at failed
  | .const value type, _, failed => by cases failed
  | .call (.table function) operands type, _, failed => by
      obtain rfl : Error.call function.name .notScalar = error := by simpa [eval] using failed
      exact .notScalar List.mem_cons_self
  | .call (.scalar function) operands type, inside, failed => by
      rw [eval] at failed
      split at failed
      · exact .invoke List.mem_cons_self failed
      · next operandFailed =>
          obtain rfl := Except.error.inj failed
          have operandsInside : ∀ operand ∈ operands, ∀ index ∈ operand.references,
              index < row.length := fun operand member index reference =>
            inside index (by simpa using ⟨operand, member, reference⟩)
          obtain ⟨operand, member, blames⟩ :=
            exists_blames_of_evalAll_error operands operandsInside operandFailed
          exact blames.of_operand member

/-- The same for a list of expressions: one of them is to blame. -/
theorem exists_blames_of_evalAll_error {row : Row} {error : Error} : (expressions : List Expr) →
    (∀ expression ∈ expressions, ∀ index ∈ expression.references, index < row.length) →
      evalAll row expressions = .error error → ∃ expression ∈ expressions, expression.Blames error
  | [], _, failed => by cases failed
  | expression :: rest, inside, failed => by
      obtain ⟨firstInside, restInside⟩ := List.forall_mem_cons.mp inside
      rw [evalAll] at failed
      split at failed
      · split at failed
        · cases failed
        · next restFailed =>
            obtain rfl := Except.error.inj failed
            obtain ⟨other, member, blames⟩ :=
              exists_blames_of_evalAll_error rest restInside restFailed
            exact ⟨other, List.mem_cons_of_mem _ member, blames⟩
      · next firstFailed =>
          obtain rfl := Except.error.inj failed
          exact ⟨expression, List.mem_cons_self,
            blames_of_eval_error expression firstInside firstFailed⟩

end

end Expr

namespace Plan

/-- The nodes that execution reaches: all but those in the inputs of a scan. -/
def executedNodes : Plan → List Plan
  | .values schema rows => [.values schema rows]
  | .project projection input => .project projection input :: executedNodes input
  | .correlate correlation left right =>
    .correlate correlation left right :: (executedNodes left ++ executedNodes right)
  | .scan source inputs => [.scan source inputs]

/-- The expressions that a root evaluates: those of a projection, or the operands of the call of a
scan. -/
def evaluated : Plan → List Expr
  | .project projection _ => projection.expressions
  | .scan source _ =>
    match source.call with
    | .call _ operands _ => operands
    | _ => []
  | .values .. => []
  | .correlate .. => []

/-- What a plan calls can fail with the error: a call in one of the expressions that are evaluated,
a scan that calls no table function, or the table function of a scan, on some arguments, by an
error of its own or by a row of another width than that of the scan. -/
inductive Blames (plan : Plan) : Error → Prop where
  | expression {node : Plan} {expression : Expr} {error : Error}
      (reached : node ∈ plan.executedNodes) (isEvaluated : expression ∈ node.evaluated)
      (blames : expression.Blames error) : Blames plan error
  | noTableCall {source : Scan} {inputs : List Plan} {error : Error}
      (reached : .scan source inputs ∈ plan.executedNodes)
      (fails : prepareScan source.call = .error error) : Blames plan error
  | generate {source : Scan} {inputs : List Plan} {function : TableFunction}
      {operands : List Expr} {type : DataType} {arguments : List Value} {error : Error}
      (reached : .scan source inputs ∈ plan.executedNodes)
      (isCall : source.call = .call (.table function) operands type)
      (fails : function.generate arguments = .error error) : Blames plan error
  | rowWidth {source : Scan} {inputs : List Plan} {function : TableFunction}
      {operands : List Expr} {type : DataType} {arguments : List Value} {rows : List Row} {row : Row}
      (reached : .scan source inputs ∈ plan.executedNodes)
      (isCall : source.call = .call (.table function) operands type)
      (generates : function.generate arguments = .ok rows) (member : row ∈ rows)
      (otherWidth : row.length ≠ source.schema.length) :
      Blames plan (.call function.name (.rowWidth row.length source.schema.length))

/-- A plan around another one is to blame for what that one is to blame for. -/
theorem Blames.mono {plan other : Plan} {error : Error} (blames : plan.Blames error)
    (reaches : ∀ node ∈ plan.executedNodes, node ∈ other.executedNodes) : other.Blames error := by
  cases blames with
  | expression reached isEvaluated blames => exact .expression (reaches _ reached) isEvaluated blames
  | noTableCall reached fails => exact .noTableCall (reaches _ reached) fails
  | generate reached isCall fails => exact .generate (reaches _ reached) isCall fails
  | rowWidth reached isCall generates member otherWidth =>
      exact .rowWidth (reaches _ reached) isCall generates member otherWidth

/-- Rows that fail to be projected fail at one of them. -/
theorem exists_of_projectRows_error {expressions : List Expr} {rows : List Row} {error : Error}
    (failed : projectRows expressions rows = .error error) :
    ∃ row ∈ rows, Expr.evalAll row expressions = .error error := by
  induction rows with
  | nil => cases failed
  | cons row rest inductionHypothesis =>
      rw [projectRows] at failed
      split at failed
      · split at failed
        · cases failed
        · next restFailed =>
            obtain rfl := Except.error.inj failed
            obtain ⟨other, member, otherFailed⟩ := inductionHypothesis restFailed
            exact ⟨other, List.mem_cons_of_mem row member, otherFailed⟩
      · next rowFailed =>
          obtain rfl := Except.error.inj failed
          exact ⟨row, List.mem_cons_self, rowFailed⟩

/-- Left rows that fail to be joined fail at one of them, where the right side fails. -/
theorem exists_of_joinRows_error {join : JoinKind} {width : Nat}
    {runRight : Row → Except Error (List Row)} {leftRows : List Row} {error : Error}
    (failed : joinRows join width runRight leftRows = .error error) :
    ∃ leftRow ∈ leftRows, runRight leftRow = .error error := by
  induction leftRows with
  | nil => cases failed
  | cons leftRow rest inductionHypothesis =>
      rw [joinRows] at failed
      split at failed
      · split at failed
        · cases failed
        · next restFailed =>
            obtain rfl := Except.error.inj failed
            obtain ⟨other, member, otherFailed⟩ := inductionHypothesis restFailed
            exact ⟨other, List.mem_cons_of_mem leftRow member, otherFailed⟩
      · next rowFailed =>
          obtain rfl := Except.error.inj failed
          exact ⟨leftRow, List.mem_cons_self, rowFailed⟩

/-- Rows that are not admitted have one of another width among them. -/
theorem exists_of_checkWidths_error {function : String} {width : Nat} {rows : List Row}
    {error : Error} (failed : checkWidths function width rows = .error error) :
    ∃ row ∈ rows, row.length ≠ width ∧ error = .call function (.rowWidth row.length width) := by
  unfold checkWidths at failed
  split at failed
  · cases failed
  · next row found =>
      have otherWidth : row.length ≠ width := by simpa using List.find?_some found
      exact ⟨row, List.mem_of_find?_eq_some found, otherWidth, (Except.error.inj failed).symm⟩

/-- Where a scan whose call stays within the row fails on it, what it calls is to blame. -/
theorem blames_of_runScan_error {source : Scan} {inputs : List Plan} {row : Row} {error : Error}
    (inside : ∀ index ∈ source.call.references, index < row.length)
    (failed : runScan source row = .error error) : (Plan.scan source inputs).Blames error := by
  have reached : Plan.scan source inputs ∈ (Plan.scan source inputs).executedNodes :=
    List.mem_singleton_self _
  unfold runScan at failed
  split at failed
  · next function operands type isCall =>
      split at failed
      · split at failed
        · next generates =>
            obtain ⟨produced, member, otherWidth, rfl⟩ := exists_of_checkWidths_error failed
            exact .rowWidth reached isCall generates member otherWidth
        · next fails =>
            obtain rfl := Except.error.inj failed
            exact .generate reached isCall fails
      · next operandFailed =>
          obtain rfl := Except.error.inj failed
          have operandsInside : ∀ operand ∈ operands, ∀ index ∈ operand.references,
              index < row.length := fun operand member index reference =>
            inside index (by simpa [isCall] using ⟨operand, member, reference⟩)
          obtain ⟨operand, member, blames⟩ :=
            Expr.exists_blames_of_evalAll_error operands operandsInside operandFailed
          exact .expression reached (by simpa [evaluated, isCall] using member) blames
  · next function operands type isCall =>
      obtain rfl := Except.error.inj failed
      exact .noTableCall reached (by rw [isCall, prepareScan])
  · next notTable notScalar =>
      obtain rfl := Except.error.inj failed
      refine .noTableCall reached ?_
      unfold prepareScan
      split
      · next isCall => exact absurd isCall (notTable _ _ _)
      · next isCall => exact absurd isCall (notScalar _ _ _)
      · rfl

/-- Where a plan fails that is valid against a row as wide as the one it runs on, what it calls is
to blame. -/
theorem blames_of_run_error {caseRule : CaseRule} {row : Option Schema} {outer : Option Row}
    {plan : Plan} {error : Error} (valid : plan.Valid caseRule row)
    (width : (outer.getD []).length = (row.getD []).length)
    (failed : run outer plan = .error error) : plan.Blames error := by
  induction plan generalizing row outer with
  | values schema rows => cases failed
  | project projection input inductionHypothesis =>
      obtain ⟨fits, inputValid⟩ := valid_project_iff.mp valid
      rw [run] at failed
      split at failed
      · next rows inputRan =>
          obtain ⟨inputRow, member, rowFailed⟩ := exists_of_projectRows_error failed
          have inputWidth := length_of_run inputValid inputRan inputRow member
          obtain ⟨expression, isExpression, blames⟩ := Expr.exists_blames_of_evalAll_error
            projection.expressions (inputWidth ▸ fits.covered) rowFailed
          exact .expression List.mem_cons_self isExpression blames
      · next inputFailed =>
          obtain rfl := Except.error.inj failed
          exact (inductionHypothesis inputValid width inputFailed).mono
            fun node reached => List.mem_cons_of_mem _ reached
  | correlate correlation left right leftHypothesis rightHypothesis =>
      obtain ⟨-, leftValid, rightValid⟩ := valid_correlate_iff.mp valid
      rw [run] at failed
      split at failed
      · next leftRows leftRan =>
          -- the right side runs on the left row, which is as wide as the left schema
          obtain ⟨leftRow, member, rightFailed⟩ := exists_of_joinRows_error failed
          have leftWidth : ((some leftRow).getD []).length = ((some left.schema).getD []).length :=
            length_of_run leftValid leftRan leftRow member
          exact (rightHypothesis rightValid leftWidth rightFailed).mono fun node reached =>
            List.mem_cons_of_mem _ (List.mem_append_right _ reached)
      · next leftFailed =>
          obtain rfl := Except.error.inj failed
          exact (leftHypothesis leftValid width leftFailed).mono fun node reached =>
            List.mem_cons_of_mem _ (List.mem_append_left _ reached)
  | scan source inputs _ =>
      have covered := (valid_scan_iff.mp valid).1
      exact blames_of_runScan_error (width ▸ covered) failed

/-- Where a plan can not be prepared, one of its scans calls no table function. -/
theorem blames_of_prepare_error {plan : Plan} {error : Error}
    (failed : plan.prepare = .error error) : plan.Blames error := by
  induction plan with
  | values schema rows => cases failed
  | project projection input inductionHypothesis =>
      exact (inductionHypothesis failed).mono fun node reached => List.mem_cons_of_mem _ reached
  | correlate correlation left right leftHypothesis rightHypothesis =>
      rw [prepare] at failed
      split at failed
      · exact (rightHypothesis failed).mono fun node reached =>
          List.mem_cons_of_mem _ (List.mem_append_right _ reached)
      · next leftFailed =>
          obtain rfl := Except.error.inj failed
          exact (leftHypothesis leftFailed).mono fun node reached =>
            List.mem_cons_of_mem _ (List.mem_append_left _ reached)
  | scan source inputs _ => exact .noTableCall (List.mem_singleton_self _) failed

/-- Where a valid plan fails to execute, what it calls is to blame. -/
theorem blames_of_execute_error {caseRule : CaseRule} {plan : Plan} {error : Error}
    (valid : plan.Valid caseRule none) (failed : plan.execute = .error error) :
    plan.Blames error := by
  unfold execute at failed
  split at failed
  · split at failed
    · cases failed
    · next runFailed =>
        obtain rfl := Except.error.inj failed
        exact blames_of_run_error valid rfl runFailed
  · next prepareFailed =>
      obtain rfl := Except.error.inj failed
      exact blames_of_prepare_error prepareFailed

/-- What a plan calls is of the right sort and has results on all arguments: the calls in the
expressions that are evaluated are calls of scalar functions that never fail, and each scan that is
reached calls a table function that always gives rows of its width. -/
structure Dependable (plan : Plan) : Prop where
  scalarCalls : ∀ node ∈ plan.executedNodes, ∀ expression ∈ node.evaluated,
    ∀ function operands type, .call function operands type ∈ expression.nodes →
      ∃ scalar, function = .scalar scalar
  tableCalls : ∀ source inputs, .scan source inputs ∈ plan.executedNodes →
    ∃ function operands type, source.call = .call (.table function) operands type
  invokes : ∀ node ∈ plan.executedNodes, ∀ expression ∈ node.evaluated,
    ∀ function operands type, .call (.scalar function) operands type ∈ expression.nodes →
      ∀ arguments, ∃ value, function.invoke arguments = .ok value
  generates : ∀ source inputs function operands type, .scan source inputs ∈ plan.executedNodes →
    source.call = .call (.table function) operands type → ∀ arguments, ∃ rows,
      function.generate arguments = .ok rows ∧ ∀ row ∈ rows, row.length = source.schema.length

/-- What a dependable plan calls is not to blame for anything. -/
theorem Dependable.not_blames {plan : Plan} (dependable : plan.Dependable) (error : Error) :
    ¬ plan.Blames error := by
  intro blames
  cases blames with
  | expression reached isEvaluated blames =>
      cases blames with
      | notScalar isCall =>
          obtain ⟨scalar, same⟩ :=
            dependable.scalarCalls _ reached _ isEvaluated _ _ _ isCall
          cases same
      | @invoke function operands type arguments _ isCall fails =>
          obtain ⟨value, invoked⟩ :=
            dependable.invokes _ reached _ isEvaluated _ _ _ isCall arguments
          rw [invoked] at fails
          cases fails
  | noTableCall reached fails =>
      obtain ⟨function, operands, type, isCall⟩ := dependable.tableCalls _ _ reached
      rw [isCall] at fails
      cases fails
  | @generate source inputs function operands type arguments _ reached isCall fails =>
      obtain ⟨rows, generated, -⟩ := dependable.generates _ _ _ _ _ reached isCall arguments
      rw [generated] at fails
      cases fails
  | @rowWidth source inputs function operands type arguments rows row reached isCall generates
      member otherWidth =>
      obtain ⟨others, generated, widths⟩ := dependable.generates _ _ _ _ _ reached isCall arguments
      obtain rfl : others = rows := Except.ok.inj (generated.symm.trans generates)
      exact otherWidth (widths row member)

/-- A plan that validates, under either case rule, gives rows of the width of its schema whenever
it executes. Whenever it does not, what it calls is to blame, never the index of a field or the
width of a row that the plan itself makes; so it executes when what it calls is dependable. -/
theorem execute_valid {caseRule : CaseRule} {plan : Plan} (valid : plan.Valid caseRule none) :
    (∀ relation, plan.execute = .ok relation → relation.schema = plan.schema ∧
      ∀ row ∈ relation.rows, row.length = plan.schema.length) ∧
    (∀ error, plan.execute = .error error → plan.Blames error) ∧
    (plan.Dependable → ∃ relation, plan.execute = .ok relation) := by
  refine ⟨fun relation executes => ?_, fun error => blames_of_execute_error valid,
    fun dependable => ?_⟩
  · unfold execute at executes
    split at executes
    · split at executes
      · next rows ran =>
          obtain rfl := Except.ok.inj executes
          exact ⟨rfl, length_of_run valid ran⟩
      · cases executes
    · cases executes
  · cases ended : plan.execute with
    | ok relation => exact ⟨relation, rfl⟩
    | error error =>
        exact absurd (blames_of_execute_error valid ended) (dependable.not_blames error)

/-- A table function that gives the number of its arguments as one row. -/
def tally : TableFunction where
  identity := "TALLY"
  name := "TALLY"
  dialect := .python
  resultType := .int
  schema := [⟨"count", .int⟩]
  generate arguments := .ok [[.int (Int32.ofNat arguments.length)]]

/-- A projection of a left correlate over `TALLY(CONCAT($0, $0), $0)`. -/
def tallyPlan : Plan :=
  .project ⟨[.ref 1 .int], ["n"]⟩ <|
    .correlate ⟨0, .empty, .left, .sensitive⟩ (.values [⟨"x", .string⟩] [[.string "a"]])
      (.scan ⟨.call (.table tally) [.concatOf [.ref 0 .string, .ref 0 .string], .ref 0 .string]
        .int, .int, tally.schema, []⟩ [])

/-- Concatenation and counting have results on all arguments. -/
theorem execute_valid_tallyPlan : ∃ relation, tallyPlan.execute = .ok relation := by
  have valid : tallyPlan.Valid .sensitive none := rfl
  have onlyConcat : ∀ node ∈ tallyPlan.executedNodes, ∀ expression ∈ node.evaluated,
      ∀ function operands type, .call function operands type ∈ expression.nodes →
        function = .scalar (.concat "CONCAT") := by
    simp +contextual [tallyPlan, executedNodes, evaluated, Expr.concatOf, Expr.nodes,
      Expr.nodesAll]
  have onlyTally : ∀ source inputs, .scan source inputs ∈ tallyPlan.executedNodes →
      source.schema = tally.schema ∧
        ∃ operands type, source.call = .call (.table tally) operands type := by
    simp +contextual [tallyPlan, executedNodes]
  have dependable : tallyPlan.Dependable := by
    refine ⟨?_, ?_, ?_, ?_⟩
    · intro node reached expression isEvaluated function operands type isCall
      exact ⟨_, onlyConcat node reached expression isEvaluated function operands type isCall⟩
    · intro source inputs reached
      exact ⟨tally, (onlyTally source inputs reached).2⟩
    · intro node reached expression isEvaluated function operands type isCall arguments
      obtain rfl : function = .concat "CONCAT" := by
        simpa using onlyConcat node reached expression isEvaluated _ operands type isCall
      exact ⟨_, rfl⟩
    · intro source inputs function operands type reached isCall arguments
      obtain ⟨sameSchema, others, otherType, isTally⟩ := onlyTally source inputs reached
      obtain ⟨rfl, -⟩ : tally = function ∧ others = operands ∧ otherType = type := by
        simpa [isTally] using isCall
      exact ⟨_, rfl, by simp [sameSchema, tally]⟩
  exact (execute_valid valid).2.2 dependable

end Plan

end Lateral
