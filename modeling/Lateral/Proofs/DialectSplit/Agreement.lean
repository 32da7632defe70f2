import Lateral.Proofs.DialectSplit.Sites
import Lateral.Proofs.Expr.Placeholders

/-!
# The test of the rule and its work

Whether the rule applies is found by a search through the whole call of a scan, and the
split goes through its operands alone and not below what it takes out. The two agree: the
rule applies exactly where a split takes a call out, and a split leaves a correlate behind
that the rule does not apply to (`applies_iff_extracts`).
-/

namespace Lateral.DialectSplit

open Plan

/-- The rule applies to a correlate over the call of a scan exactly when the operands have foreign
calls to take out. -/
theorem applies_iff_foreignCalls_ne_nil {correlation : Correlation} {left right : Plan}
    {source : Scan} {inputs : List Plan} {function : Function} {operands : List Expr}
    {type : DataType} (found : right.scanBelow? = some (source, inputs))
    (isCall : source.call = .call function operands type) :
    applies (.correlate correlation left right) = true ↔ foreignCalls function operands ≠ [] := by
  rw [applies_correlate, found]
  simp only [Option.map_some, isCall, hasCallOf_call_other]
  exact Expr.anyHasCallOf_iff_outermostAll_ne_nil function.dialect.other operands

/-- The rule applies to a correlate over the call of a scan, plain or below projections, exactly when
splitting the operands of the call takes a call out of them. Wherever the rule gives a plan for a
node, be it one that it applies to or not, the plan is a projection over a correlate that the rule
does not apply to. -/
theorem applies_iff_extracts :
    (∀ (correlation : Correlation) (left right : Plan) (side : RightSide) (function : Function)
        (operands : List Expr) (type : DataType), RightSide.ofPlan? right = some side →
      side.scan.call = .call function operands type →
        (applies (.correlate correlation left right) = true ↔
          (splitOperands left.schema.length function operands).2 ≠ [])) ∧
    ∀ (settings : Settings) (node replacement : Plan),
      (transform settings node).outcome = .ok (some replacement) →
        ∃ top correlation left right, replacement = .project top (.correlate correlation left right) ∧
          applies (.correlate correlation left right) = false := by
  constructor
  · intro correlation left right side function operands type ofRight isCall
    rw [splitOperands_eq]
    exact applies_iff_foreignCalls_ne_nil (RightSide.scanBelow?_of_ofPlan? ofRight) isCall
  · intro settings node replacement transformed
    obtain ⟨correlation, left, right, -, split, rfl⟩ := transform_eq_some_iff.mp transformed
    exact ⟨split.narrowed, correlation, .project split.widened left, split.newRight, rfl,
      split.applies_newCorrelate⟩

/-- A correlate of the row `x` with the first field of `PAIR(first, $0)`, below two projections. -/
def layeredPlan (first : Expr) : Plan :=
  .correlate ⟨0, .empty, .left, .sensitive⟩ (.values [⟨"x", .int⟩] [[.int (-7)]]) <|
    .project ⟨[.ref 0 .int], ["p"]⟩ <| .project ⟨[.ref 0 .int], ["q"]⟩ <|
      pairScan first (.ref 0 .int)

open Extraction in
/-- From `PAIR(ECHO(ABS($0)), $0)` the native call is taken out, and the rule applies. In
`PAIR(ECHO($0), $0)` all calls are python ones: split all the same, it still has none of the
other dialect. -/
theorem applies_iff_extracts_layeredPlan :
    applies (layeredPlan (echoOf (.absOf (.ref 0 .int)))) = true ∧
      applies (layeredPlan (echoOf (.ref 0 .int))) = false ∧
        ∃ top correlation left right,
          (transform .standard (layeredPlan (echoOf (.ref 0 .int)))).outcome =
            .ok (some (.project top (.correlate correlation left right))) ∧
          applies (.correlate correlation left right) = false := by
  have agrees (first : Expr) :
      applies (layeredPlan first) = true ↔
        (splitOperands 1 (.table pair) [first, .ref 0 .int]).2 ≠ [] :=
    applies_iff_extracts.1 _ _ _ _ _ _ .int rfl rfl
  refine ⟨(agrees _).mpr (List.cons_ne_nil (Expr.absOf (.ref 0 .int)) []), ?_, ?_⟩
  · rw [← Bool.not_eq_true, agrees]
    exact fun taken => taken rfl
  · obtain ⟨replacement, splits⟩ : ∃ replacement,
        (transform .standard (layeredPlan (echoOf (.ref 0 .int)))).outcome =
          .ok (some replacement) := ⟨_, rfl⟩
    obtain ⟨top, correlation, left, right, rfl, appliesNot⟩ := applies_iff_extracts.2 _ _ _ splits
    exact ⟨top, correlation, left, right, splits, appliesNot⟩

end Lateral.DialectSplit
