import Lateral.Relation
import Lateral.Proofs.Expr.Evaluation
import Lateral.Proofs.Plan.Validity

/-!
# Successful executions

What it takes for an operator to run, and what its rows are then. The rows of a
valid plan are as wide as its schema (`length_of_run`). `Plan.Refines` relates a
plan to one that has each of its successful executions; operators carry it from
their inputs to their output (`Refines.fill`).
-/

namespace Lateral

@[simp] theorem Projection.length_fieldsFrom (start : Nat) (expressions : List Expr)
    (names : List String) :
    (Projection.fieldsFrom start expressions names).length = expressions.length := by
  induction expressions generalizing start names with
  | nil => rfl
  | cons expression rest inductionHypothesis =>
      cases names <;> simp [Projection.fieldsFrom, inductionHypothesis]

/-- A projection computes as many fields as it has expressions. -/
@[simp] theorem Projection.length_schema (projection : Projection) :
    projection.schema.length = projection.expressions.length :=
  length_fieldsFrom 0 projection.expressions projection.names

/-- A correlate has the fields of both its inputs. -/
@[simp] theorem Correlation.length_schema (correlation : Correlation) (left right : Schema) :
    (correlation.schema left right).length = left.length + right.length := by
  simp [Correlation.schema]

namespace Plan

theorem projectRows_cons_eq_ok_iff {expressions : List Expr} {row : Row} {rest outputs : List Row} :
    projectRows expressions (row :: rest) = .ok outputs ↔
      ∃ output others, Expr.evalAll row expressions = .ok output ∧
        projectRows expressions rest = .ok others ∧ outputs = output :: others := by
  cases first : Expr.evalAll row expressions <;> cases later : projectRows expressions rest <;>
    simp [projectRows, first, later, eq_comm]

/-- A projection works row by row. -/
theorem projectRows_eq_ok_iff {expressions : List Expr} {rows outputs : List Row} :
    projectRows expressions rows = .ok outputs ↔
      List.Forall₂ (fun row output => Expr.evalAll row expressions = .ok output) rows outputs := by
  induction rows generalizing outputs with
  | nil => simp [projectRows, eq_comm]
  | cons row rest inductionHypothesis =>
      rw [projectRows_cons_eq_ok_iff, List.forall₂_cons_left_iff]
      simp only [inductionHypothesis, exists_and_left]

/-- Rows behind other rows are projected behind them. -/
theorem projectRows_append {expressions : List Expr} {front back outputs others : List Row}
    (first : projectRows expressions front = .ok outputs)
    (later : projectRows expressions back = .ok others) :
    projectRows expressions (front ++ back) = .ok (outputs ++ others) :=
  projectRows_eq_ok_iff.mpr <|
    List.rel_append (projectRows_eq_ok_iff.mp first) (projectRows_eq_ok_iff.mp later)

/-- The projections of two lists of rows can be told apart. -/
theorem exists_of_projectRows_append {expressions : List Expr} {front back outputs : List Row}
    (projected : projectRows expressions (front ++ back) = .ok outputs) :
    ∃ first later, projectRows expressions front = .ok first ∧
      projectRows expressions back = .ok later ∧ outputs = first ++ later := by
  induction front generalizing outputs with
  | nil => exact ⟨[], outputs, rfl, projected, rfl⟩
  | cons row rest inductionHypothesis =>
      obtain ⟨output, others, first, later, rfl⟩ := projectRows_cons_eq_ok_iff.mp projected
      obtain ⟨restOutputs, backOutputs, ofRest, ofBack, rfl⟩ := inductionHypothesis later
      exact ⟨output :: restOutputs, backOutputs,
        projectRows_cons_eq_ok_iff.mpr ⟨output, restOutputs, first, ofRest, rfl⟩, ofBack, rfl⟩

/-- Projected rows have one value for each expression. -/
theorem length_of_projectRows {expressions : List Expr} {rows outputs : List Row}
    (projected : projectRows expressions rows = .ok outputs) :
    ∀ output ∈ outputs, output.length = expressions.length := by
  induction rows generalizing outputs with
  | nil => simp_all [projectRows]
  | cons row rest inductionHypothesis =>
      obtain ⟨output, others, first, later, rfl⟩ := projectRows_cons_eq_ok_iff.mp projected
      exact List.forall_mem_cons.mpr ⟨Expr.length_of_evalAll first, inductionHypothesis later⟩

theorem joinRows_cons_eq_ok_iff {join : JoinKind} {width : Nat}
    {runRight : Row → Except Error (List Row)} {leftRow : Row} {rest rows : List Row} :
    joinRows join width runRight (leftRow :: rest) = .ok rows ↔
      ∃ rightRows others, runRight leftRow = .ok rightRows ∧
        joinRows join width runRight rest = .ok others ∧
          rows = joinRow join width leftRow rightRows ++ others := by
  cases first : runRight leftRow <;> cases later : joinRows join width runRight rest <;>
    simp [joinRows, first, later, eq_comm]

/-- What a correlate puts behind a left row: its right rows, or nulls where a left join has no
right row. -/
def rightParts (join : JoinKind) (width : Nat) (rightRows : List Row) : List Row :=
  match join, rightRows with
  | .left, [] => [List.replicate width .null]
  | _, rightRows => rightRows

theorem joinRow_eq_map (join : JoinKind) (width : Nat) (leftRow : Row) (rightRows : List Row) :
    joinRow join width leftRow rightRows =
      (rightParts join width rightRows).map (leftRow ++ ·) := by
  cases join <;> cases rightRows <;> rfl

/-- The parts are of one width when the right rows are. -/
theorem length_of_mem_rightParts {join : JoinKind} {width : Nat} {rightRows : List Row}
    (widths : ∀ rightRow ∈ rightRows, rightRow.length = width) :
    ∀ part ∈ rightParts join width rightRows, part.length = width := by
  unfold rightParts
  split
  · simp
  · exact widths

/-- Joined rows are as wide as their two parts. -/
theorem length_of_joinRows {join : JoinKind} {leftWidth width : Nat}
    {runRight : Row → Except Error (List Row)} {leftRows rows : List Row}
    (leftWidths : ∀ leftRow ∈ leftRows, leftRow.length = leftWidth)
    (widths : ∀ leftRow rightRows, runRight leftRow = .ok rightRows →
      ∀ rightRow ∈ rightRows, rightRow.length = width)
    (joined : joinRows join width runRight leftRows = .ok rows) :
    ∀ row ∈ rows, row.length = leftWidth + width := by
  induction leftRows generalizing rows with
  | nil => simp_all [joinRows]
  | cons leftRow rest inductionHypothesis =>
      obtain ⟨rightRows, others, first, later, rfl⟩ := joinRows_cons_eq_ok_iff.mp joined
      obtain ⟨leftRowWidth, restWidths⟩ := List.forall_mem_cons.mp leftWidths
      intro row member
      rcases List.mem_append.mp member with member | member
      · rw [joinRow_eq_map] at member
        obtain ⟨part, partMember, rfl⟩ := List.mem_map.mp member
        have partWidth := length_of_mem_rightParts (widths leftRow rightRows first) part partMember
        rw [List.length_append, leftRowWidth, partWidth]
      · exact inductionHypothesis restWidths later row member

/-- A right side that has all the successful runs of another joins to the same rows. -/
theorem joinRows_of_imp {join : JoinKind} {width : Nat}
    {runRight runOther : Row → Except Error (List Row)} {leftRows rows : List Row}
    (runs : ∀ row rightRows, runRight row = .ok rightRows → runOther row = .ok rightRows)
    (joined : joinRows join width runRight leftRows = .ok rows) :
    joinRows join width runOther leftRows = .ok rows := by
  induction leftRows generalizing rows with
  | nil => exact joined
  | cons leftRow rest inductionHypothesis =>
      obtain ⟨rightRows, others, first, later, rfl⟩ := joinRows_cons_eq_ok_iff.mp joined
      exact joinRows_cons_eq_ok_iff.mpr
        ⟨rightRows, others, runs leftRow rightRows first, inductionHypothesis later, rfl⟩

theorem run_project_eq_ok_iff {outer : Option Row} {projection : Projection} {input : Plan}
    {rows : List Row} :
    run outer (.project projection input) = .ok rows ↔
      ∃ inputRows, run outer input = .ok inputRows ∧
        projectRows projection.expressions inputRows = .ok rows := by
  cases inputRan : run outer input <;> simp [run, inputRan]

theorem run_correlate_eq_ok_iff {outer : Option Row} {correlation : Correlation}
    {left right : Plan} {rows : List Row} :
    run outer (.correlate correlation left right) = .ok rows ↔
      ∃ leftRows, run outer left = .ok leftRows ∧
        joinRows correlation.join right.schema.length (fun row => run (some row) right) leftRows =
          .ok rows := by
  cases leftRan : run outer left <;> simp [run, leftRan]

theorem checkWidths_eq_ok_iff {function : String} {width : Nat} {rows produced : List Row} :
    checkWidths function width produced = .ok rows ↔
      rows = produced ∧ ∀ row ∈ produced, row.length = width := by
  unfold checkWidths
  split
  · next none =>
      have all : ∀ row ∈ produced, row.length = width := by simpa using none
      exact ⟨fun same => ⟨(Except.ok.inj same).symm, all⟩, fun parts => by rw [parts.1]⟩
  · next row found =>
      have wrong : row.length ≠ width := by simpa using List.find?_some found
      have member := List.mem_of_find?_eq_some found
      simpa using fun _ => ⟨row, member, wrong⟩

/-- A scan runs when its call is one of a table function, the operands have values, and the rows
that are generated for them are of the declared width. -/
theorem runScan_eq_ok_iff {source : Scan} {row : Row} {rows : List Row} :
    runScan source row = .ok rows ↔
      ∃ function operands type arguments, source.call = .call (.table function) operands type ∧
        Expr.evalAll row operands = .ok arguments ∧ function.generate arguments = .ok rows ∧
          ∀ produced ∈ rows, produced.length = source.schema.length := by
  unfold runScan
  constructor
  · intro ran
    split at ran
    · next function operands type isCall =>
        cases evaluated : Expr.evalAll row operands with
        | error error => simp [evaluated] at ran
        | ok arguments =>
            cases generated : function.generate arguments with
            | error error => simp [evaluated, generated] at ran
            | ok produced =>
                simp only [evaluated, generated, checkWidths_eq_ok_iff] at ran
                obtain ⟨rfl, widths⟩ := ran
                exact ⟨function, operands, type, arguments, isCall, evaluated, generated, widths⟩
    · cases ran
    · cases ran
  · rintro ⟨function, operands, type, arguments, isCall, evaluated, generated, widths⟩
    simp only [isCall, evaluated, generated]
    exact checkWidths_eq_ok_iff.mpr ⟨rfl, widths⟩

/-- The rows of a valid plan are as wide as its schema. -/
theorem length_of_run {caseRule : CaseRule} {row : Option Schema} {outer : Option Row}
    {plan : Plan} {rows : List Row} (valid : plan.Valid caseRule row)
    (ran : run outer plan = .ok rows) : ∀ produced ∈ rows, produced.length = plan.schema.length := by
  induction plan generalizing row outer rows with
  | values schema literalRows =>
      obtain rfl : literalRows = rows := by simpa [run] using ran
      exact valid_values_iff.mp valid
  | project projection input _ =>
      obtain ⟨inputRows, -, projected⟩ := run_project_eq_ok_iff.mp ran
      simpa [schema] using length_of_projectRows projected
  | correlate correlation left right leftHypothesis rightHypothesis =>
      obtain ⟨-, leftValid, rightValid⟩ := valid_correlate_iff.mp valid
      obtain ⟨leftRows, leftRan, joined⟩ := run_correlate_eq_ok_iff.mp ran
      rw [schema, Correlation.length_schema]
      exact length_of_joinRows (leftHypothesis leftValid leftRan)
        (fun leftRow rightRows rightRan => rightHypothesis rightValid rightRan) joined
  | scan source inputs _ =>
      obtain ⟨-, -, -, -, -, -, -, widths⟩ := runScan_eq_ok_iff.mp ran
      exact widths

/-- Each successful execution of the first plan is one of the second, inside of any correlate and
outside. -/
structure Refines (before after : Plan) : Prop where
  schema : after.schema = before.schema
  prepare : before.prepare = .ok () → after.prepare = .ok ()
  run : ∀ outer rows, before.run outer = .ok rows → after.run outer = .ok rows

namespace Refines

/-- A plan refines itself. -/
theorem refl (plan : Plan) : Refines plan plan where
  schema := rfl
  prepare := id
  run _ _ := id

/-- Refinement goes along a chain of plans. -/
theorem trans {before middle after : Plan} (first : Refines before middle)
    (second : Refines middle after) : Refines before after where
  schema := second.schema.trans first.schema
  prepare := second.prepare ∘ first.prepare
  run outer rows ran := second.run outer rows (first.run outer rows ran)

/-- A plan that refines another executes to the same relation. -/
theorem execute {before after : Plan} (refines : Refines before after) {relation : Relation}
    (executed : before.execute = .ok relation) : after.execute = .ok relation := by
  unfold Plan.execute at executed
  split at executed
  · next prepared =>
      split at executed
      · next rows ran =>
          simpa [Plan.execute, refines.prepare prepared, refines.run none rows ran, refines.schema]
            using executed
      · cases executed
  · cases executed

theorem project (projection : Projection) {input newInput : Plan}
    (refines : Refines input newInput) :
    Refines (.project projection input) (.project projection newInput) where
  schema := rfl
  prepare := refines.prepare
  run outer rows ran := by
    obtain ⟨inputRows, inputRan, projected⟩ := run_project_eq_ok_iff.mp ran
    exact run_project_eq_ok_iff.mpr ⟨inputRows, refines.run outer inputRows inputRan, projected⟩

theorem prepare_correlate_eq_ok_iff {correlation : Correlation} {left right : Plan} :
    (Plan.correlate correlation left right).prepare = .ok () ↔
      left.prepare = .ok () ∧ right.prepare = .ok () := by
  rw [Plan.prepare]
  cases left.prepare <;> simp

theorem correlate (correlation : Correlation) {left newLeft right newRight : Plan}
    (leftRefines : Refines left newLeft) (rightRefines : Refines right newRight) :
    Refines (.correlate correlation left right) (.correlate correlation newLeft newRight) where
  schema := by simp [Plan.schema, leftRefines.schema, rightRefines.schema]
  prepare prepared := by
    obtain ⟨leftPrepared, rightPrepared⟩ := prepare_correlate_eq_ok_iff.mp prepared
    exact prepare_correlate_eq_ok_iff.mpr
      ⟨leftRefines.prepare leftPrepared, rightRefines.prepare rightPrepared⟩
  run outer rows ran := by
    obtain ⟨leftRows, leftRan, joined⟩ := run_correlate_eq_ok_iff.mp ran
    have sameJoin := joinRows_of_imp (fun row => rightRefines.run (some row)) joined
    refine run_correlate_eq_ok_iff.mpr ⟨leftRows, leftRefines.run outer leftRows leftRan, ?_⟩
    rwa [rightRefines.schema]

/-- The inputs of a scan are never run. -/
theorem scan (source : Scan) (inputs newInputs : List Plan) :
    Refines (.scan source inputs) (.scan source newInputs) where
  schema := rfl
  prepare := id
  run _ _ := id

end Refines

/-- A refined node makes a refined plan. -/
theorem Refines.fill (context : Context) {node replacement : Plan}
    (refines : Refines node replacement) :
    Refines (context.fill node) (context.fill replacement) := by
  induction context with
  | hole => exact refines
  | project projection inner inductionHypothesis => exact inductionHypothesis.project projection
  | inLeft correlation inner right inductionHypothesis =>
      exact inductionHypothesis.correlate correlation (.refl right)
  | inRight correlation left inner inductionHypothesis =>
      exact Refines.correlate correlation (.refl left) inductionHypothesis
  | scan source before inner after inductionHypothesis => exact .scan source _ _

end Plan

end Lateral
