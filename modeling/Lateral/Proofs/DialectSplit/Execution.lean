import Lateral.Proofs.DialectSplit.Validity

/-!
# Splits keep results

A split correlate has every successful execution of the correlate
(`Split.refines`). It has no others where the right input has at most one
projection over its scan (`Split.refines_back`); a longer chain is merged, and the
merged projection may run where the chain fails. The heart of both is that the
scan reads on a left row with the values of the foreign calls behind it what it
read on the left row (`Split.runScan_widened`).
-/

namespace Lateral.DialectSplit.Split

open Plan

variable {settings : Settings} {correlation : Correlation} {left right : Plan}
  (split : Split settings correlation left right)

/-- The foreign calls that became fields of the left row. -/
def calls : List Expr :=
  foreignCalls split.function split.operands

/-- The scan with its foreign calls given away. -/
def newScan : Scan :=
  { split.side.scan with
    call := .call split.function (keptOperands left split.function split.operands) split.type }

variable {leftRow : Row} {values : List Value}

/-- On a left row with the values of the foreign calls behind it the freed operands have the
values that the operands had on the left row. -/
theorem evalAll_keptOperands (width : leftRow.length = left.schema.length)
    (inside : ∀ index ∈ split.operands.flatMap Expr.references, index < left.schema.length)
    (evaluated : Expr.evalAll leftRow split.calls = .ok values) :
    Expr.evalAll (leftRow ++ values) (keptOperands left split.function split.operands) =
      Expr.evalAll leftRow split.operands := by
  refine Extraction.evalAll_extractAll (fun position => ?_) evaluated [] split.operands ?_ ?_
  · simp [Extraction.behind, width]
  · intro index member
    rw [width]
    exact inside index ((Expr.mem_flatMap_references_iff _ index _).mpr (.inl member))
  · exact List.prefix_refl _

/-- The freed scan produces on the widened row what the scan produced on the left row. -/
theorem runScan_widened (width : leftRow.length = left.schema.length)
    (inside : ∀ index ∈ split.operands.flatMap Expr.references, index < left.schema.length)
    (evaluated : Expr.evalAll leftRow split.calls = .ok values) :
    runScan split.newScan (leftRow ++ values) = runScan split.side.scan leftRow := by
  have sameArguments := split.evalAll_keptOperands width inside evaluated
  simp only [runScan, newScan, split.isCall]
  cases isFunction : split.function with
  | scalar function => rfl
  | table function =>
      rw [isFunction] at sameArguments
      simp only [sameArguments]

/-- Where the scan runs on a left row, the foreign calls have values on it. -/
theorem exists_evalAll_calls {produced : List Row}
    (ran : runScan split.side.scan leftRow = .ok produced) :
    ∃ values, Expr.evalAll leftRow split.calls = .ok values := by
  obtain ⟨function, operands, type, arguments, isCall, evaluated, -, -⟩ :=
    runScan_eq_ok_iff.mp ran
  obtain ⟨-, rfl, -⟩ : split.function = .table function ∧ split.operands = operands ∧
      split.type = type := by simpa [split.isCall] using isCall
  exact Expr.exists_evalAll_outermostAll _ split.operands evaluated

/-- The widening projection puts the values of the foreign calls behind the left row. -/
theorem evalAll_widened (width : leftRow.length = left.schema.length) {widenedRow : Row} :
    Expr.evalAll leftRow split.widened.expressions = .ok widenedRow ↔
      ∃ values, Expr.evalAll leftRow split.calls = .ok values ∧ widenedRow = leftRow ++ values := by
  have row := Expr.evalAll_fieldRefs width
  rw [split.widened_eq]
  constructor
  · intro evaluated
    obtain ⟨first, values, ofRow, ofCalls, rfl⟩ := Expr.exists_of_evalAll_append evaluated
    obtain rfl : leftRow = first := Except.ok.inj (row.symm.trans ofRow)
    exact ⟨values, ofCalls, rfl⟩
  · rintro ⟨values, ofCalls, rfl⟩
    exact Expr.evalAll_append row ofCalls

/-- The narrowing projection leaves the values of the foreign calls out again. -/
theorem evalAll_narrowed (width : leftRow.length = left.schema.length)
    (evaluated : Expr.evalAll leftRow split.calls = .ok values) {part : Row}
    (partWidth : part.length = right.schema.length) :
    Expr.evalAll (leftRow ++ values ++ part) split.narrowed.expressions =
      .ok (leftRow ++ part) := by
  have valuesWidth := Expr.length_of_evalAll evaluated
  have newRightWidth := RightSide.length_schema_withCall split.ofRight split.freed
  have rowWidth : (leftRow ++ values ++ part).length =
      (correlation.schema split.widened.schema split.newRight.schema).length := by
    simp only [List.length_append, Correlation.length_schema, split.length_schema_widened, width,
      valuesWidth, partWidth, newRightWidth, calls]
  have narrows := Expr.evalAll_fieldRefs_without rowWidth left.schema.length
    (left.schema.length + split.calls.length)
  have front : (leftRow ++ values ++ part).take left.schema.length = leftRow := by
    rw [← width, List.append_assoc, List.take_left]
  have back : (leftRow ++ values ++ part).drop (left.schema.length + split.calls.length) = part := by
    rw [← width, ← valuesWidth, ← List.length_append, List.drop_left]
  rw [front, back] at narrows
  exact narrows

/-- The rows of a left row are narrowed to what they were without the foreign calls. -/
theorem projectRows_narrowed (width : leftRow.length = left.schema.length)
    (evaluated : Expr.evalAll leftRow split.calls = .ok values) {rightRows : List Row}
    (widths : ∀ rightRow ∈ rightRows, rightRow.length = right.schema.length) :
    projectRows split.narrowed.expressions
        (joinRow correlation.join right.schema.length (leftRow ++ values) rightRows) =
      .ok (joinRow correlation.join right.schema.length leftRow rightRows) := by
  rw [joinRow_eq_map, joinRow_eq_map, projectRows_eq_ok_iff, List.forall₂_map_left_iff,
    List.forall₂_map_right_iff, List.forall₂_same]
  intro part member
  exact split.evalAll_narrowed width evaluated (length_of_mem_rightParts widths part member)

/-- Where the right input runs on a left row, the foreign calls have values, and the new right
input runs on the row with these behind it. -/
theorem exists_run_newRight (width : leftRow.length = left.schema.length)
    (inside : ∀ index ∈ split.operands.flatMap Expr.references, index < left.schema.length)
    {rightRows : List Row} (ran : run (some leftRow) right = .ok rightRows) :
    ∃ values, Expr.evalAll leftRow split.calls = .ok values ∧
      run (some (leftRow ++ values)) split.newRight = .ok rightRows := by
  have found := RightSide.scanBelow?_of_ofPlan? split.ofRight
  obtain ⟨produced, scanRan⟩ := exists_runScan_of_run found ran
  obtain ⟨values, evaluated⟩ := split.exists_evalAll_calls scanRan
  have sameScan := split.runScan_widened width inside evaluated
  have runsAs : ∀ produced, runScan split.side.scan ((some leftRow).getD []) = .ok produced →
      runScan split.newScan ((some (leftRow ++ values)).getD []) = .ok produced :=
    fun _ scanRan => sameScan.trans scanRan
  exact ⟨values, evaluated, RightSide.run_withCall split.ofRight split.freed runsAs ran⟩

/-- Where the new right input runs on a left row with the values of the foreign calls behind it,
a right input with at most one projection runs on the left row. -/
theorem run_of_run_newRight (short : right.stackedProjections ≤ 1)
    (width : leftRow.length = left.schema.length)
    (inside : ∀ index ∈ split.operands.flatMap Expr.references, index < left.schema.length)
    (evaluated : Expr.evalAll leftRow split.calls = .ok values) {rightRows : List Row}
    (ran : run (some (leftRow ++ values)) split.newRight = .ok rightRows) :
    run (some leftRow) right = .ok rightRows := by
  have sameScan := split.runScan_widened width inside evaluated
  have runsAs : ∀ produced,
      runScan split.newScan ((some (leftRow ++ values)).getD []) = .ok produced →
        runScan split.side.scan ((some leftRow).getD []) = .ok produced :=
    fun _ scanRan => sameScan.symm.trans scanRan
  exact RightSide.run_of_run_withCall split.ofRight split.freed short runsAs ran

variable {leftRows rows : List Row}

/-- Left rows that join with the right input join with the new one when they are widened, and the
joined rows are narrowed to the same ones. -/
theorem exists_joinRows_newRight
    (rightValid : right.Valid settings.caseRule (some left.schema))
    (inside : ∀ index ∈ split.operands.flatMap Expr.references, index < left.schema.length)
    (widths : ∀ leftRow ∈ leftRows, leftRow.length = left.schema.length)
    (joined : joinRows correlation.join right.schema.length (fun row => run (some row) right)
      leftRows = .ok rows) :
    ∃ widenedRows joinedRows,
      projectRows split.widened.expressions leftRows = .ok widenedRows ∧
        joinRows correlation.join right.schema.length (fun row => run (some row) split.newRight)
            widenedRows = .ok joinedRows ∧
          projectRows split.narrowed.expressions joinedRows = .ok rows := by
  induction leftRows generalizing rows with
  | nil =>
      obtain rfl : [] = rows := by simpa [joinRows] using joined
      exact ⟨[], [], rfl, rfl, rfl⟩
  | cons leftRow rest inductionHypothesis =>
      obtain ⟨rightRows, others, ran, restJoined, rfl⟩ := joinRows_cons_eq_ok_iff.mp joined
      obtain ⟨width, restWidths⟩ := List.forall_mem_cons.mp widths
      obtain ⟨values, evaluated, newRan⟩ := split.exists_run_newRight width inside ran
      obtain ⟨widenedRest, joinedRest, restWidened, restNewJoined, restNarrowed⟩ :=
        inductionHypothesis restWidths restJoined
      have widened := (split.evalAll_widened width).mpr ⟨values, evaluated, rfl⟩
      have narrowed := split.projectRows_narrowed width evaluated (length_of_run rightValid ran)
      exact ⟨(leftRow ++ values) :: widenedRest, _,
        projectRows_cons_eq_ok_iff.mpr ⟨_, _, widened, restWidened, rfl⟩,
        joinRows_cons_eq_ok_iff.mpr ⟨_, _, newRan, restNewJoined, rfl⟩,
        projectRows_append narrowed restNarrowed⟩

/-- Widened left rows that join with the new right input, the joined rows being narrowed, join with
a right input of at most one projection to the same rows. -/
theorem joinRows_of_joinRows_newRight (short : right.stackedProjections ≤ 1)
    (rightValid : right.Valid settings.caseRule (some left.schema))
    (inside : ∀ index ∈ split.operands.flatMap Expr.references, index < left.schema.length)
    (widths : ∀ leftRow ∈ leftRows, leftRow.length = left.schema.length)
    {widenedRows joinedRows : List Row}
    (widened : projectRows split.widened.expressions leftRows = .ok widenedRows)
    (joined : joinRows correlation.join right.schema.length
      (fun row => run (some row) split.newRight) widenedRows = .ok joinedRows)
    (narrowed : projectRows split.narrowed.expressions joinedRows = .ok rows) :
    joinRows correlation.join right.schema.length (fun row => run (some row) right) leftRows =
      .ok rows := by
  induction leftRows generalizing rows widenedRows joinedRows with
  | nil =>
      obtain rfl : [] = widenedRows := by simpa [projectRows] using widened
      obtain rfl : [] = joinedRows := by simpa [joinRows] using joined
      exact narrowed
  | cons leftRow rest inductionHypothesis =>
      obtain ⟨width, restWidths⟩ := List.forall_mem_cons.mp widths
      obtain ⟨widenedRow, widenedRest, first, restWidened, rfl⟩ :=
        projectRows_cons_eq_ok_iff.mp widened
      obtain ⟨values, evaluated, rfl⟩ := (split.evalAll_widened width).mp first
      obtain ⟨rightRows, joinedRest, newRan, restJoined, rfl⟩ := joinRows_cons_eq_ok_iff.mp joined
      obtain ⟨here, others, hereNarrowed, restNarrowed, rfl⟩ :=
        exists_of_projectRows_append narrowed
      have ran := split.run_of_run_newRight short width inside evaluated newRan
      have asBefore := split.projectRows_narrowed width evaluated (length_of_run rightValid ran)
      obtain rfl : joinRow correlation.join right.schema.length leftRow rightRows = here :=
        Except.ok.inj (asBefore.symm.trans hereNarrowed)
      exact joinRows_cons_eq_ok_iff.mpr ⟨rightRows, others, ran,
        inductionHypothesis restWidths restWidened restJoined restNarrowed, rfl⟩

/-- The split correlate is prepared when the correlate is. -/
theorem prepare_replacement :
    split.replacement.prepare = (Plan.correlate correlation left right).prepare := by
  have found := RightSide.scanBelow?_of_ofPlan? split.ofRight
  have newRightPrepare := RightSide.prepare_withCall split.ofRight split.freed
  have rightPrepare := prepare_of_scanBelow? found
  rw [split.isCall] at rightPrepare
  have sameCall : split.newRight.prepare = right.prepare := by
    rw [newRightPrepare, rightPrepare]
    cases split.function <;> rfl
  simp only [replacement, newCorrelate, Plan.prepare, sameCall]

/-- How a split correlate runs. -/
theorem run_replacement_eq_ok_iff {outer : Option Row} :
    run outer split.replacement = .ok rows ↔
      ∃ leftRows widenedRows joinedRows, run outer left = .ok leftRows ∧
        projectRows split.widened.expressions leftRows = .ok widenedRows ∧
          joinRows correlation.join right.schema.length
              (fun row => run (some row) split.newRight) widenedRows = .ok joinedRows ∧
            projectRows split.narrowed.expressions joinedRows = .ok rows := by
  have sameWidth := RightSide.length_schema_withCall split.ofRight split.freed
  simp only [replacement, newCorrelate, run_project_eq_ok_iff, run_correlate_eq_ok_iff, sameWidth]
  constructor
  · rintro ⟨joinedRows, ⟨widenedRows, ⟨leftRows, leftRan, widened⟩, joined⟩, narrowed⟩
    exact ⟨leftRows, widenedRows, joinedRows, leftRan, widened, joined, narrowed⟩
  · rintro ⟨leftRows, widenedRows, joinedRows, leftRan, widened, joined, narrowed⟩
    exact ⟨joinedRows, ⟨widenedRows, ⟨leftRows, leftRan, widened⟩, joined⟩, narrowed⟩

/-- A split has every successful execution of a valid correlate. -/
theorem refines {row : Option Schema}
    (valid : (Plan.correlate correlation left right).Valid settings.caseRule row) :
    Refines (.correlate correlation left right) split.replacement where
  schema := split.schema_replacement
  prepare prepared := split.prepare_replacement.trans prepared
  run outer rows ran := by
    obtain ⟨-, leftValid, rightValid⟩ := valid_correlate_iff.mp valid
    obtain ⟨leftRows, leftRan, joined⟩ := run_correlate_eq_ok_iff.mp ran
    obtain ⟨widenedRows, joinedRows, widened, newJoined, narrowed⟩ :=
      split.exists_joinRows_newRight rightValid (split.covered_of_valid valid)
        (length_of_run leftValid leftRan) joined
    exact split.run_replacement_eq_ok_iff.mpr
      ⟨leftRows, widenedRows, joinedRows, leftRan, widened, newJoined, narrowed⟩

/-- A valid correlate has every successful execution of its split when its right input has at most
one projection. -/
theorem refines_back {row : Option Schema}
    (valid : (Plan.correlate correlation left right).Valid settings.caseRule row)
    (short : right.stackedProjections ≤ 1) :
    Refines split.replacement (.correlate correlation left right) where
  schema := split.schema_replacement.symm
  prepare prepared := split.prepare_replacement.symm.trans prepared
  run outer rows ran := by
    obtain ⟨-, leftValid, rightValid⟩ := valid_correlate_iff.mp valid
    obtain ⟨leftRows, widenedRows, joinedRows, leftRan, widened, newJoined, narrowed⟩ :=
      split.run_replacement_eq_ok_iff.mp ran
    have joined := split.joinRows_of_joinRows_newRight short rightValid
      (split.covered_of_valid valid) (length_of_run leftValid leftRan) widened newJoined narrowed
    exact run_correlate_eq_ok_iff.mpr ⟨leftRows, leftRan, joined⟩

end Lateral.DialectSplit.Split
