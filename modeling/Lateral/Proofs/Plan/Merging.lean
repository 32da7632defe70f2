import Lateral.Plan.Merge
import Lateral.Proofs.Expr.Substitution
import Lateral.Proofs.Plan.Execution

/-!
# Merged projections

Merging a chain of projections over a scan keeps the names and the number of the
fields at its top. Wherever the chain runs, the merged projection gives the same
rows on what the scan produces (`run_merged`). It evaluates less than the chain
does, so it may run where the chain fails.
-/

namespace Lateral

namespace Projection

variable {projection merged : Projection}

/-- Merging into a projection below is substitution of what that one is merged to. -/
theorem merged_project_eq_ok_iff {lower : Projection} {input : Plan} :
    projection.merged (.project lower input) = .ok merged ↔
      ∃ bottom expressions, lower.merged input = .ok bottom ∧
        Expr.substituteAll bottom.expressions projection.expressions = .ok expressions ∧
          merged = ⟨expressions, projection.names⟩ := by
  cases below : lower.merged input with
  | error error => simp [Projection.merged, below]
  | ok bottom =>
      cases substituted : Expr.substituteAll bottom.expressions projection.expressions <;>
        simp [Projection.merged, below, substituted, eq_comm]

/-- A merged projection has the names of the topmost one. -/
theorem names_of_merged {input : Plan} (merges : projection.merged input = .ok merged) :
    merged.names = projection.names := by
  cases input with
  | project lower input =>
      obtain ⟨bottom, expressions, -, -, rfl⟩ := merged_project_eq_ok_iff.mp merges
      rfl
  | _ => simp_all [Projection.merged]

/-- A merged projection has as many expressions as the topmost one. -/
theorem length_of_merged {input : Plan} (merges : projection.merged input = .ok merged) :
    merged.expressions.length = projection.expressions.length := by
  cases input with
  | project lower input =>
      obtain ⟨bottom, expressions, -, substituted, rfl⟩ := merged_project_eq_ok_iff.mp merges
      exact Expr.length_of_substituteAll substituted
  | _ => simp_all [Projection.merged]

/-- Projections that can not be merged violate an invariant of plans. -/
theorem kind_of_merged_error {input : Plan} {error : Error}
    (failed : projection.merged input = .error error) : error.kind = .planInvariantViolation := by
  induction input generalizing projection with
  | project lower input inductionHypothesis =>
      rw [Projection.merged] at failed
      split at failed
      · split at failed
        · cases failed
        · next inAbove =>
            obtain rfl := Except.error.inj failed
            exact Expr.kind_of_substituteAll_error _ inAbove
      · next inBelow =>
          obtain rfl := Except.error.inj failed
          exact inductionHypothesis inBelow
  | values schema rows => cases failed
  | correlate correlation left right _ _ => cases failed
  | scan source inputs _ => cases failed

end Projection

namespace Plan

/-- The projections that are stacked at the root of a plan, the topmost first. -/
def stack : Plan → List Projection
  | .project projection input => projection :: input.stack
  | _ => []

/-- How many projections are stacked at the root of a plan. -/
def stackedProjections : Plan → Nat
  | .project _ input => input.stackedProjections + 1
  | _ => 0

/-- A plan without a projection at its root that ends in a scan is that scan. -/
theorem eq_scan_of_stackedProjections_eq_zero {plan : Plan} {source : Scan} {inputs : List Plan}
    (none : plan.stackedProjections = 0) (found : plan.scanBelow? = some (source, inputs)) :
    plan = .scan source inputs := by
  cases endsIn_of_scanBelow? found with
  | scan => rfl
  | project projection below => simp [stackedProjections] at none

/-- A chain of projections is prepared when its scan is. -/
theorem prepare_of_scanBelow? {plan : Plan} {source : Scan} {inputs : List Plan}
    (found : plan.scanBelow? = some (source, inputs)) :
    plan.prepare = prepareScan source.call := by
  have chain := endsIn_of_scanBelow? found
  clear found
  induction chain with
  | scan => rfl
  | project projection below inductionHypothesis => exact inductionHypothesis

/-- Where a chain of projections runs, its scan runs. -/
theorem exists_runScan_of_run {plan : Plan} {source : Scan} {inputs : List Plan}
    (found : plan.scanBelow? = some (source, inputs)) {outer : Option Row} {rows : List Row}
    (ran : run outer plan = .ok rows) :
    ∃ produced, runScan source (outer.getD []) = .ok produced := by
  have chain := endsIn_of_scanBelow? found
  clear found
  induction chain generalizing rows with
  | scan => exact ⟨rows, ran⟩
  | project projection below inductionHypothesis =>
      obtain ⟨inputRows, inputRan, -⟩ := run_project_eq_ok_iff.mp ran
      exact inductionHypothesis inputRan

/-- Two projections, one behind the other, give what the expressions of the second give with
those of the first put in. -/
theorem projectRows_substituteAll {lower upper expressions : List Expr}
    (substituted : Expr.substituteAll lower upper = .ok expressions) {rows middle outputs : List Row}
    (first : projectRows lower rows = .ok middle) (later : projectRows upper middle = .ok outputs) :
    projectRows expressions rows = .ok outputs := by
  induction rows generalizing middle outputs with
  | nil =>
      obtain rfl : [] = middle := by simpa [projectRows] using first
      exact later
  | cons row rest inductionHypothesis =>
      obtain ⟨values, others, evaluated, restFirst, rfl⟩ := projectRows_cons_eq_ok_iff.mp first
      obtain ⟨output, outputs, upperEvaluated, restLater, rfl⟩ :=
        projectRows_cons_eq_ok_iff.mp later
      have evaluatedOnce := Expr.evalAll_substituteAll evaluated upper substituted
      exact projectRows_cons_eq_ok_iff.mpr ⟨output, outputs, evaluatedOnce.trans upperEvaluated,
        inductionHypothesis restFirst restLater, rfl⟩

/-- Where a chain of projections over a scan runs, the scan runs, and the merged projection gives
the rows of the chain on what the scan produces. -/
theorem run_merged {outer : Option Row} {projection merged : Projection} {input : Plan}
    {source : Scan} {inputs : List Plan} {rows : List Row}
    (found : input.scanBelow? = some (source, inputs))
    (merges : projection.merged input = .ok merged)
    (ran : run outer (.project projection input) = .ok rows) :
    ∃ produced, runScan source (outer.getD []) = .ok produced ∧
      projectRows merged.expressions produced = .ok rows := by
  have chain := endsIn_of_scanBelow? found
  clear found
  induction chain generalizing projection merged rows with
  | scan =>
      obtain rfl : projection = merged := by simpa [Projection.merged] using merges
      exact run_project_eq_ok_iff.mp ran
  | project lower below inductionHypothesis =>
      obtain ⟨bottom, expressions, bottomMerges, substituted, rfl⟩ :=
        Projection.merged_project_eq_ok_iff.mp merges
      obtain ⟨middle, lowerRan, upperProjected⟩ := run_project_eq_ok_iff.mp ran
      obtain ⟨produced, scanRan, bottomProjected⟩ := inductionHypothesis bottomMerges lowerRan
      exact ⟨produced, scanRan,
        projectRows_substituteAll substituted bottomProjected upperProjected⟩

/-- Only the projections below matter to a merged projection. -/
theorem merged_congr {projection : Projection} {input other : Plan}
    (sameStack : input.stack = other.stack) :
    projection.merged input = projection.merged other := by
  induction input generalizing projection other with
  | project lower input inductionHypothesis =>
      cases other with
      | project otherLower otherInput =>
          obtain ⟨rfl, below⟩ : lower = otherLower ∧ input.stack = otherInput.stack := by
            simpa [stack] using sameStack
          rw [Projection.merged, Projection.merged, inductionHypothesis below]
      | _ => cases sameStack
  | values schema rows =>
      cases other with
      | project otherLower otherInput => cases sameStack
      | _ => rfl
  | correlate correlation left right _ _ =>
      cases other with
      | project otherLower otherInput => cases sameStack
      | _ => rfl
  | scan source inputs _ =>
      cases other with
      | project otherLower otherInput => cases sameStack
      | _ => rfl

/-- A valid chain of projections over a scan can be merged, into expressions over the row of the
scan. -/
theorem exists_merged_of_valid {caseRule : CaseRule} {row : Option Schema}
    {projection : Projection} {input : Plan} {source : Scan} {inputs : List Plan}
    (valid : (Plan.project projection input).Valid caseRule row)
    (found : input.scanBelow? = some (source, inputs)) :
    ∃ merged, projection.merged input = .ok merged ∧ ∀ expression ∈ merged.expressions,
      ∀ index ∈ expression.references, index < source.schema.length := by
  have chain := endsIn_of_scanBelow? found
  clear found
  induction chain generalizing projection with
  | scan => exact ⟨projection, rfl, (valid_project_iff.mp valid).1.covered⟩
  | project lower below inductionHypothesis =>
      obtain ⟨fits, inputValid⟩ := valid_project_iff.mp valid
      obtain ⟨bottom, bottomMerges, bottomCovered⟩ := inductionHypothesis inputValid
      have sameCount := Projection.length_of_merged bottomMerges
      have covered : ∀ index ∈ projection.expressions.flatMap Expr.references,
          index < bottom.expressions.length := by
        intro index member
        obtain ⟨expression, isExpression, inside⟩ := List.mem_flatMap.mp member
        simpa [sameCount, Plan.schema] using fits.covered expression isExpression index inside
      obtain ⟨expressions, substituted⟩ := Expr.exists_substituteAll projection.expressions covered
      refine ⟨⟨expressions, projection.names⟩,
        Projection.merged_project_eq_ok_iff.mpr ⟨bottom, _, bottomMerges, substituted, rfl⟩, ?_⟩
      intro expression member index inside
      obtain ⟨field, isField, inField⟩ :=
        Expr.exists_mem_of_mem_references_substituteAll substituted member inside
      exact bottomCovered field isField index inField

end Plan

end Lateral
