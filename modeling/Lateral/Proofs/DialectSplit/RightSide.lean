import Lateral.Optimizer.DialectSplit
import Lateral.Proofs.Plan.Merging

/-!
# Right sides of a split

A right side is a scan or a chain of projections over one. `shape_of_withCall`
says what giving its scan another call makes of it; the other statements compare
the right input before and after: it keeps its width, and it runs as it did
wherever the scan does.
-/

namespace Lateral.RightSide

/-- The inputs of the scan of a right side. -/
def inputs : RightSide → List Plan
  | .plain _ inputs => inputs
  | .wrapped _ _ _ inputs => inputs

/-- A right input is a right side exactly when it ends in a scan, which is the scan of the right
side. -/
theorem map_ofPlan? (right : Plan) :
    (ofPlan? right).map (fun side => (side.scan, side.inputs)) = right.scanBelow? := by
  cases right with
  | project projection below =>
      cases found : below.scanBelow? <;> simp [ofPlan?, Plan.scanBelow?, found, scan, inputs]
  | _ => rfl

variable {right newRight : Plan} {side : RightSide} {call : Expr}

/-- The right input of a right side ends in its scan. -/
theorem scanBelow?_of_ofPlan? (ofRight : ofPlan? right = some side) :
    right.scanBelow? = some (side.scan, side.inputs) := by
  rw [← map_ofPlan?, ofRight, Option.map_some]

/-- A plain scan gets the call; projections are merged into one over the scan with the call. -/
theorem shape_of_withCall (ofRight : ofPlan? right = some side)
    (freed : side.withCall call = .ok newRight) :
    (right = .scan side.scan side.inputs ∧
        newRight = .scan { side.scan with call } side.inputs) ∨
      ∃ projection below merged, right = .project projection below ∧
        below.scanBelow? = some (side.scan, side.inputs) ∧
          projection.merged below = .ok merged ∧
            newRight = .project merged (.scan { side.scan with call } side.inputs) := by
  cases right with
  | values schema rows => cases ofRight
  | correlate correlation leftInput rightInput => cases ofRight
  | scan source scanInputs =>
      obtain rfl : RightSide.plain source scanInputs = side := by simpa [ofPlan?] using ofRight
      exact .inl ⟨rfl, (Except.ok.inj freed).symm⟩
  | project projection below =>
      obtain ⟨found, isFound, rfl⟩ := Option.map_eq_some_iff.mp ofRight
      cases merges : projection.merged below with
      | error error => simp [withCall, merges, Except.map] at freed
      | ok merged =>
          rw [withCall, merges] at freed
          exact .inr ⟨projection, below, merged, rfl, isFound, merges,
            (Except.ok.inj freed).symm⟩

/-- With another call the right input still ends in the scan, which has the call. -/
theorem scanBelow?_withCall (ofRight : ofPlan? right = some side)
    (freed : side.withCall call = .ok newRight) :
    newRight.scanBelow? = some ({ side.scan with call }, side.inputs) := by
  rcases shape_of_withCall ofRight freed with
    ⟨-, rfl⟩ | ⟨projection, below, merged, -, -, -, rfl⟩
  · rfl
  · rfl

/-- Only projections that can not be merged keep a scan from getting another call. -/
theorem kind_of_withCall_error {error : Error} (failed : side.withCall call = .error error) :
    error.kind = .planInvariantViolation := by
  cases side with
  | plain source scanInputs => cases failed
  | wrapped projection below source scanInputs =>
      rw [withCall] at failed
      cases merges : projection.merged below with
      | ok merged => simp [merges, Except.map] at failed
      | error other =>
          obtain rfl : other = error := by simpa [merges, Except.map] using failed
          exact Projection.kind_of_merged_error merges

/-- The right input keeps its width. -/
theorem length_schema_withCall (ofRight : ofPlan? right = some side)
    (freed : side.withCall call = .ok newRight) :
    newRight.schema.length = right.schema.length := by
  rcases shape_of_withCall ofRight freed with
    ⟨rfl, rfl⟩ | ⟨projection, below, merged, rfl, found, merges, rfl⟩
  · rfl
  · simpa [Plan.schema] using Projection.length_of_merged merges

/-- The right input is prepared when the call is. -/
theorem prepare_withCall (ofRight : ofPlan? right = some side)
    (freed : side.withCall call = .ok newRight) : newRight.prepare = Plan.prepareScan call := by
  rcases shape_of_withCall ofRight freed with
    ⟨-, rfl⟩ | ⟨projection, below, merged, -, -, -, rfl⟩
  · rfl
  · rfl

/-- The right input runs as before where its scan does. -/
theorem run_withCall (ofRight : ofPlan? right = some side)
    (freed : side.withCall call = .ok newRight) {outer newOuter : Option Row}
    (runsAs : ∀ produced, Plan.runScan side.scan (outer.getD []) = .ok produced →
      Plan.runScan { side.scan with call } (newOuter.getD []) = .ok produced)
    {rows : List Row} (ran : right.run outer = .ok rows) : newRight.run newOuter = .ok rows := by
  rcases shape_of_withCall ofRight freed with
    ⟨rfl, rfl⟩ | ⟨projection, below, merged, rfl, found, merges, rfl⟩
  · exact runsAs rows ran
  · obtain ⟨produced, scanRan, projected⟩ := Plan.run_merged found merges ran
    exact Plan.run_project_eq_ok_iff.mpr ⟨produced, runsAs produced scanRan, projected⟩

/-- Where no projections had to be merged, the right input ran before wherever it runs now. -/
theorem run_of_run_withCall (ofRight : ofPlan? right = some side)
    (freed : side.withCall call = .ok newRight) (short : right.stackedProjections ≤ 1)
    {outer newOuter : Option Row}
    (runsAs : ∀ produced, Plan.runScan { side.scan with call } (newOuter.getD []) = .ok produced →
      Plan.runScan side.scan (outer.getD []) = .ok produced)
    {rows : List Row} (ran : newRight.run newOuter = .ok rows) : right.run outer = .ok rows := by
  rcases shape_of_withCall ofRight freed with
    ⟨rfl, rfl⟩ | ⟨projection, below, merged, rfl, found, merges, rfl⟩
  · exact runsAs rows ran
  · obtain rfl := Plan.eq_scan_of_stackedProjections_eq_zero (Nat.le_zero.mp (by
      simpa [Plan.stackedProjections] using short)) found
    obtain rfl : projection = merged := Except.ok.inj merges
    obtain ⟨produced, scanRan, projected⟩ := Plan.run_project_eq_ok_iff.mp ran
    exact Plan.run_project_eq_ok_iff.mpr ⟨produced, runsAs produced scanRan, projected⟩

end Lateral.RightSide
