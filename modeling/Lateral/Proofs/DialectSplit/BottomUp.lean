import Lateral.Proofs.DialectSplit.Completion
import Lateral.Proofs.Optimizer.BottomUp

/-!
# Splitting from below

Correlates may be split anywhere in a plan and in any order (`SplitsTo`). When none is
left to be split, the plan is the one that a single pass from below makes
(`rewriteUp_of_splitsTo`), and so is the result of a run that admits enough firings
(`optimize_eq_rewriteUp`). A split looks at the inputs of its correlate only through
what the pass keeps of them: their schema, the chain of projections over the scan on
the right, and whether they are valid. So splitting first and passing below the split
comes to the same as passing below the correlate and splitting then
(`rewriteUp_correlate_of_split`).
-/

namespace Lateral

namespace Plan

/-- The chain of projections over a scan with other inputs in the scan. -/
def withScanInputs (inputs : List Plan) : Plan → Plan
  | .scan source _ => .scan source inputs
  | .project projection input => .project projection (input.withScanInputs inputs)
  | plan => plan

theorem scanBelow?_withScanInputs (inputs : List Plan) (plan : Plan) :
    (plan.withScanInputs inputs).scanBelow? = plan.scanBelow?.map fun found => (found.1, inputs) := by
  induction plan with
  | project projection input inductionHypothesis => exact inductionHypothesis
  | _ => rfl

theorem stack_withScanInputs (inputs : List Plan) (plan : Plan) :
    (plan.withScanInputs inputs).stack = plan.stack := by
  induction plan with
  | project projection input inductionHypothesis =>
      simp [withScanInputs, stack, inductionHypothesis]
  | _ => rfl

theorem chain?_withScanInputs (inputs : List Plan) (plan : Plan) :
    DialectSplit.chain? (plan.withScanInputs inputs) = DialectSplit.chain? plan := by
  induction plan with
  | project projection input inductionHypothesis =>
      simp [withScanInputs, DialectSplit.chain?, inductionHypothesis]
  | _ => rfl

@[simp] theorem schema_withScanInputs (inputs : List Plan) (plan : Plan) :
    (plan.withScanInputs inputs).schema = plan.schema := by
  cases plan <;> rfl

end Plan

namespace RightSide

/-- A right side with other inputs in its scan. -/
def withScanInputs (inputs : List Plan) : RightSide → RightSide
  | .plain scan _ => .plain scan inputs
  | .wrapped projection below scan _ =>
    .wrapped projection (below.withScanInputs inputs) scan inputs

@[simp] theorem scan_withScanInputs (inputs : List Plan) (side : RightSide) :
    (side.withScanInputs inputs).scan = side.scan := by
  cases side <;> rfl

theorem ofPlan?_withScanInputs (inputs : List Plan) (right : Plan) :
    ofPlan? (right.withScanInputs inputs) = (ofPlan? right).map (withScanInputs inputs) := by
  cases right with
  | project projection below =>
      simp only [Plan.withScanInputs, ofPlan?, Plan.scanBelow?_withScanInputs, Option.map_map]
      rfl
  | _ => rfl

/-- Getting another call does not depend on the inputs of the scan. -/
theorem withCall_withScanInputs (inputs : List Plan) {side : RightSide} {call : Expr}
    {newRight : Plan} (freed : side.withCall call = .ok newRight) :
    (side.withScanInputs inputs).withCall call = .ok (newRight.withScanInputs inputs) := by
  cases side with
  | plain scan scanInputs =>
      obtain rfl := Except.ok.inj freed
      rfl
  | wrapped projection below scan scanInputs =>
      rw [withCall] at freed
      rw [withScanInputs, withCall, Plan.merged_congr (Plan.stack_withScanInputs inputs below)]
      cases merges : projection.merged below with
      | error error => simp [merges, Except.map] at freed
      | ok merged =>
          obtain rfl : .project merged (.scan { scan with call } scanInputs) = newRight := by
            simpa [merges, Except.map] using freed
          rfl

end RightSide

namespace DialectSplit

open Plan Rule

variable {settings : Settings}

/-- Splits of correlates that the rule applies to, anywhere in a plan and in any order. -/
inductive SplitsTo (settings : Settings) : Plan → Plan → Prop where
  | none (plan : Plan) : SplitsTo settings plan plan
  | next {node replacement plan result last : Plan} (appliesHere : applies node = true)
      (transformed : (transform settings node).outcome = .ok (some replacement))
      (replaces : Replaces node replacement plan result)
      (rest : SplitsTo settings result last) : SplitsTo settings plan last

/-- The steps of a run are splits in one of the orders. -/
theorem splitsTo_of_steps {names : List String} {plan last : Plan}
    (steps : Steps [rule] settings names plan last) : SplitsTo settings plan last := by
  induction steps with
  | none plan => exact .none plan
  | next fired checked rest inductionHypothesis =>
      obtain ⟨context, correlation, left, right, split, isPlan, appliesHere, -, isResult⟩ :=
        exists_split_of_step fired
      have replaces := replaces_iff_exists_context.mpr ⟨context, isPlan, isResult⟩
      exact .next appliesHere (transform_split split) replaces inductionHypothesis

/-- A node that the rule does not apply to stays. -/
theorem rewrite_of_applies_eq_false {node : Plan} (leftAlone : applies node = false) :
    rule.rewrite settings node = .ok node := by
  simp [rewrite, verdict, accepts_rule, leftAlone, Except.map]

/-- A correlate that the rule applies to gives place to its split. -/
theorem rewrite_split {correlation : Correlation} {left right : Plan}
    (split : Split settings correlation left right)
    (appliesHere : applies (.correlate correlation left right) = true) :
    rule.rewrite settings (.correlate correlation left right) = .ok split.replacement := by
  have transformed : (rule.transform settings (.correlate correlation left right)).outcome =
      .ok (some split.replacement) := transform_split split
  simp [rewrite, verdict, accepts_rule, appliesHere, transformed, Except.map]

/-- What the rule makes of a node is the node itself or a split of it. -/
theorem rewrite_cases {node result : Plan} (rewritten : rule.rewrite settings node = .ok result) :
    result = node ∨ ∃ correlation left right, node = .correlate correlation left right ∧
      ∃ split : Split settings correlation left right, result = split.replacement := by
  by_cases appliesHere : applies node = true
  · simp only [rewrite, verdict, accepts_rule, appliesHere, if_true] at rewritten
    cases transformed : (rule.transform settings node).outcome with
    | error error => simp [transformed, Except.map] at rewritten
    | ok found =>
        cases found with
        | none => exact absurd transformed (transform_ne_none settings node)
        | some replacement =>
            obtain rfl : replacement = result := by
              simpa [transformed, Except.map] using rewritten
            exact .inr (transform_eq_some_iff.mp transformed)
  · rw [rewrite_of_applies_eq_false (by simpa using appliesHere)] at rewritten
    exact .inl (Except.ok.inj rewritten).symm

/-- The second plan has the schema of the first one and is valid where that one is. -/
structure Keeps (settings : Settings) (before after : Plan) : Prop where
  schema : after.schema = before.schema
  valid : ∀ row, before.Valid settings.caseRule row → after.Valid settings.caseRule row

theorem Keeps.trans {before middle after : Plan} (first : Keeps settings before middle)
    (later : Keeps settings middle after) : Keeps settings before after where
  schema := later.schema.trans first.schema
  valid row := later.valid row ∘ first.valid row

/-- What the rule makes of a node has the schema of the node and is valid where it is. -/
theorem keeps_of_rewrite {node result : Plan}
    (rewritten : rule.rewrite settings node = .ok result) : Keeps settings node result := by
  rcases rewrite_cases rewritten with rfl | ⟨correlation, left, right, rfl, split, rfl⟩
  · exact ⟨rfl, fun _ => id⟩
  · exact ⟨split.schema_replacement, fun _ => split.valid_replacement⟩

/-- Inputs that keep schema and validity make an operator that does. -/
theorem Keeps.project (projection : Projection) {input newInput : Plan}
    (keeps : Keeps settings input newInput) :
    Keeps settings (.project projection input) (.project projection newInput) where
  schema := rfl
  valid row valid := by
    obtain ⟨fits, inputValid⟩ := valid_project_iff.mp valid
    exact valid_project_iff.mpr ⟨keeps.schema ▸ fits, keeps.valid row inputValid⟩

theorem Keeps.correlate (correlation : Correlation) {left newLeft right newRight : Plan}
    (leftKeeps : Keeps settings left newLeft) (rightKeeps : Keeps settings right newRight) :
    Keeps settings (.correlate correlation left right)
      (.correlate correlation newLeft newRight) where
  schema := by simp [Plan.schema, leftKeeps.schema, rightKeeps.schema]
  valid row valid := by
    obtain ⟨fits, leftValid, rightValid⟩ := valid_correlate_iff.mp valid
    rw [valid_correlate_iff, leftKeeps.schema, rightKeeps.schema]
    exact ⟨fits, leftKeeps.valid row leftValid, rightKeeps.valid _ rightValid⟩

theorem Keeps.scan (source : Scan) {inputs newInputs : List Plan}
    (keeps : List.Forall₂ (Keeps settings) inputs newInputs) :
    Keeps settings (.scan source inputs) (.scan source newInputs) where
  schema := rfl
  valid row valid := by
    obtain ⟨covered, inputsValid⟩ := valid_scan_iff.mp valid
    refine valid_scan_iff.mpr ⟨covered, ?_⟩
    clear valid covered
    induction keeps with
    | nil => simp
    | cons first rest inductionHypothesis =>
        obtain ⟨firstValid, restValid⟩ := List.forall_mem_cons.mp inputsValid
        exact List.forall_mem_cons.mpr
          ⟨first.valid row firstValid, inductionHypothesis restValid⟩

mutual

/-- What the pass makes of a plan has the schema of the plan and is valid where it is. -/
theorem keeps_of_rewriteUp : (plan : Plan) → {result : Plan} →
    rule.rewriteUp settings plan = .ok result → Keeps settings plan result
  | .values schema rows, result, rewritten => keeps_of_rewrite rewritten
  | .project projection input, result, rewritten => by
      obtain ⟨newInput, inInput, atRoot⟩ := rewriteUp_project_eq_ok_iff.mp rewritten
      exact (Keeps.project projection (keeps_of_rewriteUp input inInput)).trans
        (keeps_of_rewrite atRoot)
  | .correlate correlation left right, result, rewritten => by
      obtain ⟨newLeft, newRight, inLeft, inRight, atRoot⟩ :=
        rewriteUp_correlate_eq_ok_iff.mp rewritten
      exact (Keeps.correlate correlation (keeps_of_rewriteUp left inLeft)
        (keeps_of_rewriteUp right inRight)).trans (keeps_of_rewrite atRoot)
  | .scan source inputs, result, rewritten => by
      obtain ⟨newInputs, inInputs, atRoot⟩ := rewriteUp_scan_eq_ok_iff.mp rewritten
      exact (Keeps.scan source (keeps_of_rewriteUpAll inputs inInputs)).trans
        (keeps_of_rewrite atRoot)

theorem keeps_of_rewriteUpAll : (plans : List Plan) → {results : List Plan} →
    rule.rewriteUpAll settings plans = .ok results → List.Forall₂ (Keeps settings) plans results
  | [], results, rewritten => by
      obtain rfl : [] = results := Except.ok.inj rewritten
      exact .nil
  | plan :: rest, results, rewritten => by
      obtain ⟨result, others, first, later, rfl⟩ := rewriteUpAll_cons_eq_ok_iff.mp rewritten
      exact .cons (keeps_of_rewriteUp plan first) (keeps_of_rewriteUpAll rest later)

end

/-- The pass leaves a plan alone that the rule applies nowhere in. -/
theorem rewriteUp_of_applies_eq_false {plan : Plan}
    (noneApplies : ∀ node ∈ plan.nodes, applies node = false) :
    rule.rewriteUp settings plan = .ok plan := by
  induction plan with
  | values schema rows => exact rewrite_of_applies_eq_false rfl
  | project projection input inductionHypothesis =>
      obtain ⟨here, below⟩ := List.forall_mem_cons.mp noneApplies
      exact rewriteUp_project_eq_ok_iff.mpr
        ⟨input, inductionHypothesis below, rewrite_of_applies_eq_false here⟩
  | correlate correlation left right leftHypothesis rightHypothesis =>
      obtain ⟨here, below⟩ := List.forall_mem_cons.mp noneApplies
      obtain ⟨inLeft, inRight⟩ := List.forall_mem_append.mp below
      exact rewriteUp_correlate_eq_ok_iff.mpr ⟨left, right, leftHypothesis inLeft,
        rightHypothesis inRight, rewrite_of_applies_eq_false here⟩
  | scan source inputs inductionHypothesis =>
      obtain ⟨here, below⟩ := List.forall_mem_cons.mp noneApplies
      rw [nodesAll_eq_flatMap, List.forall_mem_flatMap] at below
      have sameInputs := rewriteUpAll_eq_self fun input member =>
        inductionHypothesis input member (below input member)
      exact rewriteUp_scan_eq_ok_iff.mpr ⟨inputs, sameInputs, rewrite_of_applies_eq_false here⟩

/-- The pass rewrites a chain of projections over a scan in the inputs of the scan only. -/
theorem rewriteUp_chain_eq_ok_iff {plan result : Plan} {source : Scan} {inputs : List Plan}
    (found : plan.scanBelow? = some (source, inputs)) :
    rule.rewriteUp settings plan = .ok result ↔
      ∃ newInputs, rule.rewriteUpAll settings inputs = .ok newInputs ∧
        result = plan.withScanInputs newInputs := by
  have chain := endsIn_of_scanBelow? found
  clear found
  induction chain generalizing result with
  | scan =>
      have rewritten (newInputs : List Plan) :
          rule.rewrite settings (.scan source newInputs) = .ok (.scan source newInputs) :=
        rewrite_of_applies_eq_false rfl
      simp [rewriteUp_scan_eq_ok_iff, rewritten, withScanInputs, @eq_comm _ result]
  | @project projection input below inductionHypothesis =>
      have rewritten (newInput : Plan) :
          rule.rewrite settings (.project projection newInput) = .ok (.project projection newInput) :=
        rewrite_of_applies_eq_false rfl
      simp only [rewriteUp_project_eq_ok_iff, rewritten, inductionHypothesis, withScanInputs,
        Except.ok.injEq]
      constructor
      · rintro ⟨newInput, ⟨newInputs, inInputs, rfl⟩, rfl⟩
        exact ⟨newInputs, inInputs, rfl⟩
      · rintro ⟨newInputs, inInputs, rfl⟩
        exact ⟨_, ⟨newInputs, inInputs, rfl⟩, rfl⟩

section Split

variable {correlation : Correlation} {left right : Plan}

/-- A split goes through when its left input and the inputs of its scan give place to plans that
keep what the rule looks at, and its parts stay the same. -/
theorem exists_split_of_keeps (split : Split settings correlation left right) {newLeft : Plan}
    {newInputs : List Plan} (leftKeeps : Keeps settings left newLeft)
    (rightKeeps : Keeps settings split.newRight (split.newRight.withScanInputs newInputs)) :
    ∃ newSplit : Split settings correlation newLeft (right.withScanInputs newInputs),
      newSplit.replacement = .project split.narrowed
        (.correlate correlation (.project split.widened newLeft)
          (split.newRight.withScanInputs newInputs)) := by
  have sameKept : keptOperands newLeft split.function split.operands =
      keptOperands left split.function split.operands := by
    rw [keptOperands, keptOperands, leftKeeps.schema]
  refine ⟨{
    side := split.side.withScanInputs newInputs
    function := split.function
    operands := split.operands
    type := split.type
    newRight := split.newRight.withScanInputs newInputs
    widened := split.widened
    ofRight := by rw [RightSide.ofPlan?_withScanInputs, split.ofRight, Option.map_some]
    isCall := by rw [RightSide.scan_withScanInputs, split.isCall]
    sameCase := split.sameCase
    freed := sameKept ▸ RightSide.withCall_withScanInputs newInputs split.freed
    widens := leftKeeps.schema ▸ split.widens
    newRightValid := rightKeeps.valid _ split.newRightValid
    sameRow := by simpa [leftKeeps.schema] using split.sameRow }, ?_⟩
  simp [Split.replacement, Split.newCorrelate, Split.narrowed, leftKeeps.schema]

/-- Splitting a correlate and passing below the split comes to the same as passing below the
correlate and splitting it then. -/
theorem rewriteUp_correlate_of_split (split : Split settings correlation left right)
    (appliesHere : applies (.correlate correlation left right) = true) {result : Plan}
    (rewritten : rule.rewriteUp settings split.replacement = .ok result) :
    rule.rewriteUp settings (.correlate correlation left right) = .ok result := by
  have found := RightSide.scanBelow?_of_ofPlan? split.ofRight
  have newFound := RightSide.scanBelow?_withCall split.ofRight split.freed
  obtain ⟨newCorrelate, inCorrelate, atTop⟩ := rewriteUp_project_eq_ok_iff.mp rewritten
  obtain ⟨widenedLeft, newRight, inWidened, inRight, atCorrelate⟩ :=
    rewriteUp_correlate_eq_ok_iff.mp inCorrelate
  obtain ⟨newLeft, inLeft, atWidened⟩ := rewriteUp_project_eq_ok_iff.mp inWidened
  obtain ⟨newInputs, inInputs, rfl⟩ := (rewriteUp_chain_eq_ok_iff newFound).mp inRight
  -- The nodes that the split has put in place are left alone by the pass.
  have leftAlone : applies (.correlate correlation widenedLeft
      (split.newRight.withScanInputs newInputs)) = false :=
    (applies_congr (chain?_withScanInputs newInputs split.newRight)).trans
      split.applies_newCorrelate
  rw [rewrite_of_applies_eq_false rfl] at atTop atWidened
  rw [rewrite_of_applies_eq_false leftAlone] at atCorrelate
  obtain rfl := Except.ok.inj atWidened
  obtain rfl := Except.ok.inj atCorrelate
  obtain rfl := Except.ok.inj atTop
  obtain ⟨newSplit, sameReplacement⟩ := exists_split_of_keeps split
    (keeps_of_rewriteUp left inLeft) (keeps_of_rewriteUp split.newRight inRight)
  have appliesAbove : applies (.correlate correlation newLeft
      (right.withScanInputs newInputs)) = true :=
    (applies_congr (chain?_withScanInputs newInputs right)).trans appliesHere
  exact rewriteUp_correlate_eq_ok_iff.mpr ⟨newLeft, right.withScanInputs newInputs, inLeft,
    (rewriteUp_chain_eq_ok_iff found).mpr ⟨newInputs, inInputs, rfl⟩,
    sameReplacement ▸ rewrite_split newSplit appliesAbove⟩

end Split

/-- Splits in any order lead to what the pass makes of the plan, once there are none left. -/
theorem rewriteUp_of_splitsTo {plan last : Plan} (splits : SplitsTo settings plan last)
    (noneApplies : ∀ node ∈ last.nodes, applies node = false) :
    rule.rewriteUp settings plan = .ok last := by
  induction splits with
  | none plan => exact rewriteUp_of_applies_eq_false noneApplies
  | next appliesHere transformed replaces rest inductionHypothesis =>
      obtain ⟨context, rfl, rfl⟩ := replaces_iff_exists_context.mp replaces
      obtain ⟨correlation, left, right, rfl, split, rfl⟩ := transform_eq_some_iff.mp transformed
      exact rewriteUp_fill (fun _ => rewriteUp_correlate_of_split split appliesHere) context
        (inductionHypothesis noneApplies)

/-- A run of the rule that ends well, with as many firings admitted as there are correlates that the
rule applies to, makes of a plan what a single pass from below makes of it: of all inputs of a node
first, those of a scan included, and then of the node over the new inputs. The order of the splits
does not matter: in whatever order correlates are split, the last plan is the same one when the rule
applies nowhere in it. -/
theorem optimize_eq_rewriteUp {firings : Firings} {plan optimized : Plan}
    (enough : plan.nodes.countP applies ≤ settings.maxFirings.toNat)
    (optimizes : (Optimizer.optimize ⟨[rule], settings, firings⟩ plan).outcome = .ok optimized) :
    rule.rewriteUp settings plan = .ok optimized ∧
      ∀ other, SplitsTo settings plan other → (∀ node ∈ other.nodes, applies node = false) →
        other = optimized := by
  obtain ⟨names, steps, short, quiet⟩ := transformUpTo_eq_ok_iff.mp optimizes
  have noneApplies := applies_eq_false_of_steps steps short quiet enough
  have passed := rewriteUp_of_splitsTo (splitsTo_of_steps steps) noneApplies
  refine ⟨passed, fun other splits otherApplies => ?_⟩
  have otherPassed := rewriteUp_of_splitsTo splits otherApplies
  exact Except.ok.inj (otherPassed.symm.trans passed)

/-- The surroundings of the lower correlate in the nested plan. -/
def nestedContext : Context :=
  .inLeft ⟨1, .empty, .left, .sensitive⟩ .hole
    (pairScan (.absOf (.ref 1 .int)) (.ref 0 .int))

/-- Splitting the lower correlate of the nested plan first, and the upper one then, gives what a run
and the pass from below make of the plan. -/
theorem optimize_eq_rewriteUp_nestedPlan :
    ∃ optimized, (Optimizer.optimize ⟨[rule], .standard, .none⟩ nestedPlan).outcome =
      .ok optimized ∧ rule.rewriteUp .standard nestedPlan = .ok optimized ∧
        (transform .standard (nestedContext.fill (splitPairPlan (-7) 0))).outcome =
          .ok (some optimized) := by
  have optimizes : ∃ optimized,
      (Optimizer.optimize ⟨[rule], .standard, .none⟩ nestedPlan).outcome = .ok optimized := ⟨_, rfl⟩
  obtain ⟨optimized, optimizes⟩ := optimizes
  have splitsLast : ∃ other,
      (transform .standard (nestedContext.fill (splitPairPlan (-7) 0))).outcome =
        .ok (some other) ∧ ∀ node ∈ other.nodes, applies node = false := ⟨_, rfl, by decide⟩
  obtain ⟨other, transformed, noneApplies⟩ := splitsLast
  have lowerFirst : SplitsTo .standard nestedPlan other :=
    .next rfl rfl (replaces_iff_exists_context.mpr ⟨nestedContext, rfl, rfl⟩) <|
      .next rfl transformed .here (.none other)
  obtain ⟨passed, sameForAll⟩ := optimize_eq_rewriteUp (by decide) optimizes
  obtain rfl : other = optimized := sameForAll other lowerFirst noneApplies
  exact ⟨other, optimizes, passed, transformed⟩

end DialectSplit

end Lateral
