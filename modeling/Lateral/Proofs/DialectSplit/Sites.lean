import Lateral.Proofs.DialectSplit.Step

/-!
# Sites of a plan

The correlates that the rule applies to, in the order in which they are visited,
with what the rule looks at: the correlation, the left row, and the projections
and the scan on the right. A split takes its own site away and leaves all others as
they are, those of its ancestors included (`Split.sites_fill`), so each step takes
the first site of the plan away (`sites_of_step`).
-/

namespace Lateral.DialectSplit

open Plan

/-- The chain of projections over a scan that a plan is, without the inputs of the scan. -/
def chain? : Plan → Option Plan
  | .scan source _ => some (.scan source [])
  | .project projection input => (chain? input).map (.project projection)
  | .values .. => none
  | .correlate .. => none

/-- What the rule looks at in a correlate that it applies to. -/
structure Site where
  correlation : Correlation
  left : Schema
  right : Plan

/-- The site that a node is, if the rule applies to it. -/
def site? : Plan → Option Site
  | .correlate correlation left right =>
    if applies (.correlate correlation left right) then
      (chain? right).map fun chain => ⟨correlation, left.schema, chain⟩
    else none
  | _ => none

@[simp] theorem site?_project (projection : Projection) (input : Plan) :
    site? (.project projection input) = none :=
  rfl

@[simp] theorem site?_scan (source : Scan) (inputs : List Plan) :
    site? (.scan source inputs) = none :=
  rfl

/-- The sites of a plan, in the order in which they are visited. -/
def sites (plan : Plan) : List Site :=
  plan.nodes.filterMap site?

/-- A chain ends in the scan that the plan ends in. -/
theorem scanBelow?_chain? (plan : Plan) :
    (chain? plan).bind scanBelow? = plan.scanBelow?.map fun found => (found.1, []) := by
  induction plan with
  | values schema rows => rfl
  | project projection input inductionHypothesis =>
      cases isChain : chain? input <;> simp_all [chain?, scanBelow?]
  | correlate correlation left right _ _ => rfl
  | scan source inputs _ => rfl

/-- A plan with a chain ends in a scan, and the chain ends in this scan. -/
theorem scanBelow?_of_chain? {plan chain : Plan} (isChain : chain? plan = some chain)
    {source : Scan} :
    chain.scanBelow? = some (source, []) ↔ ∃ inputs, plan.scanBelow? = some (source, inputs) := by
  have sameScan := scanBelow?_chain? plan
  rw [isChain, Option.bind_some] at sameScan
  rw [sameScan]
  cases plan.scanBelow? with
  | none => simp
  | some found => simp [Prod.ext_iff]

/-- A chain is made of the projections of the plan. -/
theorem stack_of_chain? {plan chain : Plan} (isChain : chain? plan = some chain) :
    chain.stack = plan.stack := by
  induction plan generalizing chain with
  | values schema rows => cases isChain
  | project projection input inductionHypothesis =>
      obtain ⟨below, isBelow, rfl⟩ := Option.map_eq_some_iff.mp isChain
      simp [stack, inductionHypothesis isBelow]
  | correlate correlation left right _ _ => cases isChain
  | scan source inputs _ =>
      obtain rfl := Option.some.inj isChain
      rfl

/-- A chain has the fields and the projections of the plan. -/
theorem schema_of_chain? {plan chain : Plan} (isChain : chain? plan = some chain) :
    chain.schema = plan.schema ∧ chain.stackedProjections = plan.stackedProjections := by
  induction plan generalizing chain with
  | values schema rows => cases isChain
  | project projection input inductionHypothesis =>
      obtain ⟨below, isBelow, rfl⟩ := Option.map_eq_some_iff.mp isChain
      simp [Plan.schema, stackedProjections, (inductionHypothesis isBelow).2]
  | correlate correlation left right _ _ => cases isChain
  | scan source inputs _ =>
      obtain rfl := Option.some.inj isChain
      exact ⟨rfl, rfl⟩

/-- The rule looks at the call at the end of the right input. -/
theorem applies_correlate (correlation : Correlation) (left right : Plan) :
    applies (.correlate correlation left right) =
      match right.scanBelow?.map fun found => found.1.call with
      | some (.call function operands type) =>
        (Expr.call function operands type).hasCallOf function.dialect.other
      | _ => false := by
  rw [← RightSide.map_ofPlan?, applies]
  cases RightSide.ofPlan? right with
  | none => rfl
  | some side => cases isCall : side.scan.call <;> simp [isCall]

/-- A function is not foreign to itself, so a foreign call in a call stands in an operand. -/
theorem hasCallOf_call_other (function : Function) (operands : List Expr) (type : DataType) :
    (Expr.call function operands type).hasCallOf function.dialect.other =
      Expr.anyHasCallOf function.dialect.other operands := by
  have notForeign : (function.dialect == function.dialect.other) = false := by
    cases function.dialect <;> rfl
  rw [Expr.hasCallOf, notForeign, Bool.false_or]

/-- Only the chain on the right matters to the rule. -/
theorem applies_congr {correlation other : Correlation} {left right newLeft newRight : Plan}
    (sameChain : chain? newRight = chain? right) :
    applies (.correlate other newLeft newRight) = applies (.correlate correlation left right) := by
  have sameScan : (newRight.scanBelow?.map fun found => found.1.call) =
      right.scanBelow?.map fun found => found.1.call := by
    have ofNew := congrArg (Option.map fun found => found.1.call) (scanBelow?_chain? newRight)
    have ofOld := congrArg (Option.map fun found => found.1.call) (scanBelow?_chain? right)
    rw [sameChain] at ofNew
    simpa [Function.comp_def] using ofNew.symm.trans ofOld
  rw [applies_correlate, applies_correlate, sameScan]

/-- A node is a site exactly when the rule applies to it. -/
theorem isSome_site? (node : Plan) : (site? node).isSome = applies node := by
  cases node with
  | correlate correlation left right =>
      by_cases appliesHere : applies (.correlate correlation left right) = true
      · have isChain : (chain? right).isSome := by
          have sameScan := scanBelow?_chain? right
          rw [applies_correlate] at appliesHere
          cases chained : chain? right with
          | some chain => rfl
          | none =>
              rw [chained] at sameScan
              have noScan : right.scanBelow? = none := by simpa using sameScan.symm
              simp [noScan] at appliesHere
        simp [site?, appliesHere, isChain]
      · simp [site?, appliesHere]
  | _ => rfl

/-- What a site tells of its correlate. -/
theorem site?_eq_some_iff {node : Plan} {site : Site} :
    site? node = some site ↔ ∃ correlation left right chain,
      node = .correlate correlation left right ∧ applies node = true ∧
        chain? right = some chain ∧ site = ⟨correlation, left.schema, chain⟩ := by
  constructor
  · intro isSite
    have appliesHere : applies node = true := by rw [← isSome_site?, isSite, Option.isSome_some]
    cases node with
    | correlate correlation left right =>
        simp only [site?, appliesHere, if_true] at isSite
        obtain ⟨chain, isChain, rfl⟩ := Option.map_eq_some_iff.mp isSite
        exact ⟨correlation, left, right, chain, rfl, appliesHere, isChain, rfl⟩
    | _ => cases isSite
  · rintro ⟨correlation, left, right, chain, rfl, appliesHere, isChain, rfl⟩
    simp [site?, appliesHere, isChain]

/-- The rule applies to a correlate exactly when it is a site. -/
theorem exists_site {correlation : Correlation} {left right : Plan}
    (appliesHere : applies (.correlate correlation left right) = true) :
    ∃ chain, chain? right = some chain ∧
      site? (.correlate correlation left right) = some ⟨correlation, left.schema, chain⟩ := by
  have isSite := isSome_site? (.correlate correlation left right)
  rw [appliesHere, Option.isSome_iff_exists] at isSite
  obtain ⟨site, isSite⟩ := isSite
  obtain ⟨_, _, _, chain, same, -, isChain, rfl⟩ := site?_eq_some_iff.mp isSite
  obtain ⟨rfl, rfl, rfl⟩ := Plan.correlate.inj same
  exact ⟨chain, isChain, isSite⟩

theorem sites_correlate (correlation : Correlation) (left right : Plan) :
    sites (.correlate correlation left right) =
      (site? (.correlate correlation left right)).toList ++ (sites left ++ sites right) := by
  cases isSite : site? (.correlate correlation left right) <;> simp [sites, nodes, isSite]

/-- A chain of projections over a scan has the sites of the inputs of the scan. -/
theorem sites_of_scanBelow? {plan : Plan} {source : Scan} {inputs : List Plan}
    (found : plan.scanBelow? = some (source, inputs)) : sites plan = inputs.flatMap sites := by
  have chain := endsIn_of_scanBelow? found
  clear found
  induction chain with
  | scan =>
      rw [sites, nodes, nodesAll_eq_flatMap, List.filterMap_cons_none (site?_scan source inputs),
        List.filterMap_flatMap]
      rfl
  | project projection below inductionHypothesis => exact inductionHypothesis

/-- The sites of a filled context are those before the hole, those in it and those after it. -/
theorem sites_fill (context : Context) (node : Plan) :
    sites (context.fill node) = (context.before node).filterMap site? ++ sites node ++
      context.after.filterMap site? := by
  simp [sites, context.nodes_fill]

section Replacement

variable {node replacement : Plan}

/-- Where neither of two plans is a chain, a context makes the same chain of them. -/
theorem chain?_fill (context : Context) (nodeChain : chain? node = none)
    (replacementChain : chain? replacement = none) :
    chain? (context.fill replacement) = chain? (context.fill node) := by
  induction context with
  | hole => exact replacementChain.trans nodeChain.symm
  | project projection inner inductionHypothesis => simp [Context.fill, chain?, inductionHypothesis]
  | inLeft correlation inner right inductionHypothesis => rfl
  | inRight correlation left inner inductionHypothesis => rfl
  | scan source before inner after inductionHypothesis => rfl

/-- The left row and the chain on the right make the site of a correlate. -/
theorem site?_congr {correlation : Correlation} {left right newLeft newRight : Plan}
    (sameSchema : newLeft.schema = left.schema) (sameChain : chain? newRight = chain? right) :
    site? (.correlate correlation newLeft newRight) =
      site? (.correlate correlation left right) := by
  have sameAnswer : applies (.correlate correlation newLeft newRight) =
      applies (.correlate correlation left right) := applies_congr sameChain
  simp only [site?, sameAnswer, sameSchema, sameChain]

/-- A replacement of the same schema leaves the sites of its ancestors as they are, if neither it
nor the node is a chain. -/
theorem filterMap_site?_before (context : Context) (sameSchema : replacement.schema = node.schema)
    (nodeChain : chain? node = none) (replacementChain : chain? replacement = none) :
    (context.before replacement).filterMap site? = (context.before node).filterMap site? := by
  induction context with
  | hole => rfl
  | project projection inner inductionHypothesis =>
      simpa [Context.before, List.filterMap_cons] using inductionHypothesis
  | inLeft correlation inner right inductionHypothesis =>
      have sameSite : site? (.correlate correlation (inner.fill replacement) right) =
          site? (.correlate correlation (inner.fill node) right) :=
        site?_congr (inner.schema_fill sameSchema) rfl
      simp only [Context.before, List.filterMap_cons, sameSite, inductionHypothesis]
  | inRight correlation left inner inductionHypothesis =>
      have sameSite : site? (.correlate correlation left (inner.fill replacement)) =
          site? (.correlate correlation left (inner.fill node)) :=
        site?_congr rfl (chain?_fill inner nodeChain replacementChain)
      simp only [Context.before, List.filterMap_cons, List.filterMap_append, sameSite,
        inductionHypothesis]
  | scan source before inner after inductionHypothesis =>
      simp [Context.before, List.filterMap_cons, inductionHypothesis]

end Replacement

namespace Split

variable {settings : Settings} {correlation : Correlation} {left right : Plan}
  (split : Split settings correlation left right)

/-- The new correlate has no foreign call any more. -/
theorem applies_newCorrelate : applies split.newCorrelate = false := by
  have found := RightSide.scanBelow?_withCall split.ofRight split.freed
  have freed : Expr.anyHasCallOf split.function.dialect.other
      (keptOperands left split.function split.operands) = false :=
    Extraction.anyHasCallOf_extractAll rfl [] split.operands
  rw [newCorrelate, applies_correlate, found]
  simpa [hasCallOf_call_other] using freed

/-- A split has the sites that the inputs of the correlate have. -/
theorem sites_replacement : sites split.replacement = sites left ++ sites right := by
  have noSite : site? split.newCorrelate = none := by
    have isSite := isSome_site? split.newCorrelate
    rw [split.applies_newCorrelate] at isSite
    simpa using isSite
  have ofRight := sites_of_scanBelow? (RightSide.scanBelow?_of_ofPlan? split.ofRight)
  have ofNewRight := sites_of_scanBelow? (RightSide.scanBelow?_withCall split.ofRight split.freed)
  have ofCorrelate := sites_correlate correlation (.project split.widened left) split.newRight
  rw [← newCorrelate, noSite, ofNewRight, ← ofRight] at ofCorrelate
  exact ofCorrelate

/-- A split takes away the site of its correlate, if it is one, and keeps all other sites of the
plan around it. -/
theorem sites_fill (context : Context) :
    ∃ before after,
      sites (context.fill (.correlate correlation left right)) =
          before ++ (site? (.correlate correlation left right)).toList ++ after ∧
        sites (context.fill split.replacement) = before ++ after ∧
          before = (context.before (.correlate correlation left right)).filterMap site? := by
  have sameBefore := filterMap_site?_before context split.schema_replacement rfl rfl
  refine ⟨_, sites left ++ sites right ++ context.after.filterMap site?, ?_, ?_, rfl⟩
  · rw [DialectSplit.sites_fill, sites_correlate]
    simp only [List.append_assoc]
  · rw [DialectSplit.sites_fill, sameBefore, split.sites_replacement]
    simp only [List.append_assoc]

end Split

variable {settings : Settings}

/-- A step splits the correlate of the first site and leaves all other sites. -/
theorem exists_site_of_step {plan : Plan} {firing : Firing Plan}
    (fired : (plan.step [rule] settings).outcome = .ok (some firing)) :
    ∃ (context : Context) (correlation : Correlation) (left right : Plan)
      (split : Split settings correlation left right) (chain : Plan),
      firing.result = context.fill split.replacement ∧ chain? right = some chain ∧
        sites plan = ⟨correlation, left.schema, chain⟩ :: sites firing.result := by
  obtain ⟨context, correlation, left, right, split, rfl, appliesHere, first, isResult⟩ :=
    exists_split_of_step fired
  obtain ⟨before, after, ofPlan, ofResult, isBefore⟩ := split.sites_fill context
  have noneBefore : before = [] := by
    rw [isBefore, List.filterMap_eq_nil_iff]
    intro node member
    simpa [first node member] using isSome_site? node
  obtain ⟨chain, isChain, isSite⟩ := exists_site appliesHere
  refine ⟨context, correlation, left, right, split, chain, isResult, isChain, ?_⟩
  rw [isResult, ofPlan, ofResult, noneBefore, isSite]
  rfl

/-- A step takes the first site away. -/
theorem sites_of_step {plan : Plan} {firing : Firing Plan}
    (fired : (plan.step [rule] settings).outcome = .ok (some firing)) :
    ∃ site, sites plan = site :: sites firing.result := by
  obtain ⟨context, correlation, left, right, split, chain, -, -, isFirst⟩ :=
    exists_site_of_step fired
  exact ⟨_, isFirst⟩

/-- A run takes sites away from the front, one with each step. -/
theorem sites_of_steps {names : List String} {plan last : Plan}
    (steps : Steps [rule] settings names plan last) :
    ∃ taken, taken.length = names.length ∧ sites plan = taken ++ sites last := by
  induction steps with
  | none plan => exact ⟨[], rfl, rfl⟩
  | next fired checked rest inductionHypothesis =>
      obtain ⟨site, isFirst⟩ := sites_of_step fired
      obtain ⟨taken, count, front⟩ := inductionHypothesis
      exact ⟨site :: taken, by simp [count], by simp [isFirst, front]⟩

end Lateral.DialectSplit
