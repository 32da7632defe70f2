import Lateral.Proofs.DialectSplit.Sites
import Lateral.Proofs.DialectSplit.Splittable
import Lateral.Proofs.DialectSplit.ValidRuns

/-!
# Dangling references under a split

The call of a scan may refer to a field that the left row does not have. A run that
validates transformed plans finds such a reference after its first step, unless it
is in the first correlate to be split and is admitted there (`Admitted`): outside of
the foreign calls, and not behind the fields that these become. Then the freed call
reads one of these fields in its place, and a plan that is valid otherwise is split
without an error (`optimize_of_dangling`). The correlate is given with its place in
the plan; each node has one (`exists_context_of_mem_nodes`).
-/

namespace Lateral.DialectSplit

open Plan

variable {settings : Settings}

/-- In a valid plan the scan of a site refers to fields of its left row only. -/
theorem covered_of_mem_sites {caseRule : CaseRule} {row : Option Schema} {plan : Plan}
    (valid : plan.Valid caseRule row) {site : Site} (member : site ∈ sites plan)
    {source : Scan} (found : site.right.scanBelow? = some (source, [])) :
    ∀ index ∈ source.call.references, index < site.left.length := by
  obtain ⟨node, nodeMember, isSite⟩ := List.mem_filterMap.mp member
  obtain ⟨correlation, left, right, chain, rfl, -, isChain, rfl⟩ := site?_eq_some_iff.mp isSite
  obtain ⟨nodeRow, nodeValid⟩ := valid.of_mem_nodes nodeMember
  have rightValid := (valid_correlate_iff.mp nodeValid).2.2
  obtain ⟨inputs, rightFound⟩ := (scanBelow?_of_chain? isChain).mp found
  exact (valid_scan_iff.mp (rightValid.scanBelow rightFound)).1

/-- A correlate can be split when its site can. -/
theorem Splittable.of_chain? {correlation : Correlation} {left : Schema} {right chain : Plan}
    (splittable : Splittable settings correlation left chain) (isChain : chain? right = some chain) :
    Splittable settings correlation left right where
  sameCase := splittable.sameCase
  distinct := splittable.distinct
  sameTypes projection below merged isProject merges := by
    subst isProject
    obtain ⟨belowChain, isBelow, rfl⟩ := Option.map_eq_some_iff.mp isChain
    refine splittable.sameTypes projection belowChain merged rfl ?_
    rwa [merged_congr (stack_of_chain? isBelow)]

/-- A site can be split when its correlate can. -/
theorem Splittable.chain {correlation : Correlation} {left : Schema} {right chain : Plan}
    (splittable : Splittable settings correlation left right) (isChain : chain? right = some chain) :
    Splittable settings correlation left chain where
  sameCase := splittable.sameCase
  distinct := splittable.distinct
  sameTypes projection belowChain merged isProject merges := by
    subst isProject
    cases right with
    | project other below =>
        obtain ⟨otherChain, isBelow, same⟩ := Option.map_eq_some_iff.mp isChain
        obtain ⟨rfl, rfl⟩ := Plan.project.inj same
        refine splittable.sameTypes other below merged rfl ?_
        rwa [← merged_congr (stack_of_chain? isBelow)]
    | _ => cases isChain

/-- Every site of the plan can be split. -/
def AllSplittable (settings : Settings) (plan : Plan) : Prop :=
  ∀ site ∈ sites plan, Splittable settings site.correlation site.left site.right

/-- Every site can be split when each correlate can that the rule applies to. -/
theorem allSplittable_of_nodes {plan : Plan}
    (splittable : ∀ correlation left right, .correlate correlation left right ∈ plan.nodes →
      applies (.correlate correlation left right) = true →
        Splittable settings correlation left.schema right) : AllSplittable settings plan := by
  intro site member
  obtain ⟨node, nodeMember, isSite⟩ := List.mem_filterMap.mp member
  obtain ⟨correlation, left, right, chain, rfl, appliesHere, isChain, rfl⟩ :=
    site?_eq_some_iff.mp isSite
  exact (splittable correlation left right nodeMember appliesHere).chain isChain

/-- A correlate of a valid plan that is a site and can be split gives place to a split. -/
theorem exists_replacement_of_valid {plan : Plan} {row : Option Schema}
    (valid : plan.Valid settings.caseRule row) (splittable : AllSplittable settings plan)
    {node : Plan} (member : node ∈ plan.nodes) (appliesHere : applies node = true) :
    ∃ replacement, (transform settings node).outcome = .ok (some replacement) := by
  cases node with
  | correlate correlation left right =>
      obtain ⟨chain, isChain, isSite⟩ := exists_site appliesHere
      have canSplit := (splittable _ (List.mem_filterMap.mpr ⟨_, member, isSite⟩)).of_chain? isChain
      obtain ⟨nodeRow, nodeValid⟩ := valid.of_mem_nodes member
      rw [applies_correlate] at appliesHere
      cases found : right.scanBelow? with
      | none => simp [found] at appliesHere
      | some scan =>
          cases called : scan.1.call with
          | call function operands type =>
              have isCall : scan.1.call.isCall = true := by rw [called]; rfl
              obtain ⟨split⟩ := exists_split_of_valid nodeValid found isCall canSplit
              exact ⟨split.replacement, transform_split split⟩
          | _ => simp [found, called] at appliesHere
  | _ => cases appliesHere

/-- A run on a valid plan whose sites can be split ends well. -/
theorem exists_optimized {remaining : Nat} {firings : Firings} {plan : Plan}
    (valid : plan.Valid settings.caseRule none) (splittable : AllSplittable settings plan) :
    ∃ optimized, (transformUpTo [rule] settings remaining firings plan).outcome = .ok optimized := by
  cases ended : (transformUpTo [rule] settings remaining firings plan).outcome with
  | ok optimized => exact ⟨optimized, rfl⟩
  | error error =>
      obtain ⟨names, last, steps, -, fails⟩ := transformUpTo_eq_error_iff.mp ended
      have lastValid := valid_of_steps steps valid
      obtain ⟨taken, -, front⟩ := sites_of_steps steps
      have lastSplittable : AllSplittable settings last := fun site member =>
        splittable site (front ▸ List.mem_append_right taken member)
      rcases fails with stepFailed | ⟨firing, fired, rejected⟩
      · obtain ⟨node, member, appliesHere, transformFailed⟩ := exists_failure_of_step stepFailed
        obtain ⟨replacement, transformed⟩ :=
          exists_replacement_of_valid lastValid lastSplittable member appliesHere
        simp [transformed] at transformFailed
      · have firingValid : firing.result.validate settings.caseRule none = .ok () :=
          valid_of_step fired lastValid
        simp [Settings.check, firingValid] at rejected

section Dangling

variable {firings : Firings} {plan : Plan} {context : Context} {correlation : Correlation}
  {left right : Plan} {source : Scan} {inputs : List Plan} {function : Function}
  {operands : List Expr} {type : DataType} {index : Nat}

/-- A run that validates transformed plans does not end well when a correlate that the rule applies
to has a dangling reference, and another one comes first or the reference is not admitted. -/
theorem outcome_ne_ok_of_dangling (validates : settings.validates = true) {remaining : Nat}
    (place : plan = context.fill (.correlate correlation left right))
    (appliesHere : applies (.correlate correlation left right) = true)
    (found : right.scanBelow? = some (source, inputs))
    (isCall : source.call = .call function operands type)
    (reference : index ∈ operands.flatMap Expr.references) (dangling : left.schema.length ≤ index)
    (noticed : (∃ node ∈ context.before (.correlate correlation left right),
        applies node = true) ∨ ¬ Admitted left.schema function operands) (optimized : Plan) :
    (transformUpTo [rule] settings (remaining + 1) firings plan).outcome ≠ .ok optimized := by
  intro ended
  obtain ⟨chain, isChain, isSite⟩ := exists_site appliesHere
  have chainFound := (scanBelow?_of_chain? isChain).mpr ⟨inputs, found⟩
  obtain ⟨names, steps, -, quiet⟩ := transformUpTo_eq_ok_iff.mp ended
  cases steps with
  | none =>
      have member : Plan.correlate correlation left right ∈ plan.nodes :=
        place ▸ context.mem_nodes_fill _
      have idle := quiet (Nat.succ_pos remaining)
      simp [applies_eq_false_of_step idle _ member] at appliesHere
  | @next _ _ firing names fired checked rest =>
      rw [Settings.check, if_pos validates] at checked
      obtain ⟨firedContext, firedCorrelation, firedLeft, firedRight, split, firedChain, isResult,
        isFiredChain, isFirst⟩ := exists_site_of_step fired
      rw [place, sites_fill, sites_correlate, isSite] at isFirst
      cases earlier : (context.before (.correlate correlation left right)).filterMap site? with
      | cons site others =>
          -- the site stays and its reference is seen by the validator
          rw [earlier] at isFirst
          have stays : ⟨correlation, left.schema, chain⟩ ∈ sites firing.result := by
            rw [← (List.cons.inj isFirst).2]
            simp
          have inside := covered_of_mem_sites checked stays chainFound index (by
            rw [isCall, Expr.references_call]
            exact reference)
          exact absurd inside (Nat.not_lt.mpr dangling)
      | nil =>
          rw [earlier] at isFirst
          obtain ⟨-, sameLeft, sameChain⟩ := Site.mk.inj (List.cons.inj isFirst).1
          have firedFound := (scanBelow?_of_chain? isFiredChain).mpr
            ⟨_, RightSide.scanBelow?_of_ofPlan? split.ofRight⟩
          rw [← sameChain, chainFound] at firedFound
          obtain rfl : source = split.side.scan := congrArg Prod.fst (Option.some.inj firedFound)
          obtain ⟨rfl, rfl, -⟩ := Expr.call.inj (isCall.symm.trans split.isCall)
          rw [isResult] at checked
          obtain ⟨firedRow, firedValid⟩ :=
            Valid.of_mem_nodes checked (firedContext.mem_nodes_fill split.replacement)
          have admitted := split.admitted_of_valid_replacement firedValid
          rcases noticed with ⟨node, member, appliesEarlier⟩ | notAdmitted
          · have isNone := List.filterMap_eq_nil_iff.mp earlier node member
            have isSome := isSome_site? node
            simp [isNone, appliesEarlier] at isSome
          · exact notAdmitted (sameLeft ▸ admitted)

/-- A run splits the first correlate and ends well when the plan is valid without the operands of
its scan, these are admitted, and all sites can be split. -/
theorem exists_optimized_of_admitted {remaining : Nat}
    (place : plan = context.fill (.correlate correlation left right))
    (appliesHere : applies (.correlate correlation left right) = true)
    (found : right.scanBelow? = some (source, inputs))
    (isCall : source.call = .call function operands type)
    (first : ∀ node ∈ context.before (.correlate correlation left right), applies node = false)
    (admitted : Admitted left.schema function operands)
    (bareValid : (context.fill (.correlate correlation left right.withoutOperands)).Valid
      settings.caseRule none)
    (splittable : AllSplittable settings plan) :
    ∃ optimized,
      (transformUpTo [rule] settings (remaining + 1) firings plan).outcome = .ok optimized := by
  subst place
  obtain ⟨chain, isChain, isSite⟩ := exists_site appliesHere
  have member : ⟨correlation, left.schema, chain⟩ ∈
      sites (context.fill (.correlate correlation left right)) :=
    List.mem_filterMap.mpr ⟨_, context.mem_nodes_fill _, isSite⟩
  have canSplit := (splittable _ member).of_chain? isChain
  obtain ⟨nodeRow, nodeValid⟩ := bareValid.of_mem_nodes (context.mem_nodes_fill _)
  obtain ⟨split, rfl, rfl⟩ := exists_split found isCall nodeValid canSplit admitted
  have fired := outcome_step_fill (passed_of_applies_eq_false first)
    (tryRules_split split appliesHere)
  have resultValid : (context.fill split.replacement).Valid settings.caseRule none := by
    refine context.valid_fill ?_ (fun row valid => ?_) bareValid
    · simpa [Plan.schema] using split.schema_replacement
    · obtain ⟨fits, leftValid, -⟩ := valid_correlate_iff.mp valid
      exact split.valid_replacement_of_admitted (by simpa using fits) leftValid admitted
  have checked : settings.check (context.fill split.replacement) = .ok () := by
    have accepted : (context.fill split.replacement).validate settings.caseRule none = .ok () :=
      resultValid
    simp [Settings.check, accepted]
  have resultSplittable : AllSplittable settings (context.fill split.replacement) := by
    obtain ⟨before, after, ofPlan, ofResult, -⟩ := split.sites_fill context
    intro site member
    refine splittable site ?_
    rw [ofResult] at member
    rw [ofPlan]
    grind
  rw [outcome_transformUpTo_of_some fired checked]
  exact exists_optimized resultValid resultSplittable

/-- A dangling reference that is admitted is exposed, and the freed call reads a foreign call's
field in its place. -/
theorem Split.reads_call_of_dangling (split : Split settings correlation left right)
    (admitted : Admitted left.schema split.function split.operands)
    (reference : index ∈ split.operands.flatMap Expr.references)
    (dangling : left.schema.length ≤ index) :
    index ∈ (keptOperands left split.function split.operands).flatMap Expr.references ∧
      ∃ call ∈ foreignCalls split.function split.operands,
        split.widened.expressions[index]? = some call := by
  rcases (Expr.mem_flatMap_references_iff _ index _).mp reference with exposed | ⟨call, member, inside⟩
  · refine ⟨mem_references_keptOperands_iff.mpr (.inl exposed), ?_⟩
    have below : index - left.schema.length <
        (foreignCalls split.function split.operands).length := by
      have bound := admitted.exposed index exposed
      omega
    refine ⟨_, List.getElem_mem below, ?_⟩
    rw [split.widened_eq]
    simp [List.getElem?_append_right, dangling, below]
  · have inLeft := admitted.foreign call member index inside
    omega

/-- What a run that validates transformed plans makes of a dangling reference, if there are enough
firings for all correlates that the rule applies to. The run fails with a violated invariant when
another correlate comes first or the reference is not admitted. Otherwise a plan that is valid
without the operands of the scan, and whose correlates can be split, is split without an error, and
the reference ends up at the field of a foreign call. -/
theorem optimize_of_dangling (validates : settings.validates = true)
    (enough : plan.nodes.countP applies ≤ settings.maxFirings.toNat)
    (place : plan = context.fill (.correlate correlation left right))
    (appliesHere : applies (.correlate correlation left right) = true)
    (found : right.scanBelow? = some (source, inputs))
    (isCall : source.call = .call function operands type)
    (reference : index ∈ operands.flatMap Expr.references)
    (dangling : left.schema.length ≤ index) :
    ((∃ node ∈ context.before (.correlate correlation left right), applies node = true) ∨
        ¬ Admitted left.schema function operands →
      ∃ error, (Optimizer.optimize ⟨[rule], settings, firings⟩ plan).outcome = .error error ∧
        error.kind = .planInvariantViolation) ∧
    ((∀ node ∈ context.before (.correlate correlation left right), applies node = false) →
      Admitted left.schema function operands →
      (context.fill (.correlate correlation left right.withoutOperands)).Valid
        settings.caseRule none →
      (∀ correlation left right, .correlate correlation left right ∈ plan.nodes →
        applies (.correlate correlation left right) = true →
          Splittable settings correlation left.schema right) →
      (∃ optimized,
        (Optimizer.optimize ⟨[rule], settings, firings⟩ plan).outcome = .ok optimized) ∧
        ∃ split : Split settings correlation left right,
          split.function = function ∧ split.operands = operands ∧
            index ∈ (keptOperands left function operands).flatMap Expr.references ∧
              ∃ call ∈ foreignCalls function operands,
                split.widened.expressions[index]? = some call) := by
  have member : Plan.correlate correlation left right ∈ plan.nodes :=
    place ▸ context.mem_nodes_fill _
  have someFiring : 0 < plan.nodes.countP applies :=
    List.countP_pos_iff.mpr ⟨_, member, appliesHere⟩
  obtain ⟨remaining, count⟩ : ∃ remaining, settings.maxFirings.toNat = remaining + 1 :=
    Nat.exists_eq_add_one.mpr (Nat.lt_of_lt_of_le someFiring enough)
  constructor
  · intro noticed
    cases ended : (Optimizer.optimize ⟨[rule], settings, firings⟩ plan).outcome with
    | error error => exact ⟨error, rfl, kind_of_optimize_error ended⟩
    | ok optimized =>
        rw [Optimizer.optimize, count] at ended
        exact absurd ended (outcome_ne_ok_of_dangling validates place appliesHere found isCall
          reference dangling noticed optimized)
  · intro first admitted bareValid splittable
    have allSplittable := allSplittable_of_nodes splittable
    obtain ⟨nodeRow, nodeValid⟩ := bareValid.of_mem_nodes (context.mem_nodes_fill _)
    obtain ⟨split, rfl, rfl⟩ := exists_split found isCall nodeValid
      (splittable correlation left right member appliesHere) admitted
    refine ⟨?_, split, rfl, rfl, split.reads_call_of_dangling admitted reference dangling⟩
    rw [Optimizer.optimize, count]
    exact exists_optimized_of_admitted place appliesHere found isCall first admitted bareValid
      allSplittable

end Dangling

/-- On rows of one field, `PAIR(ABS($0), $2)` is found out, and `PAIR(ABS($0), $1)` is not: there
the split reads `ABS($0)` in the place of the missing field. -/
theorem optimize_of_dangling_pairPlan :
    (∃ error, (Optimizer.optimize ⟨[rule], .standard, .none⟩ (pairPlan (-7) 2)).outcome =
        .error error ∧ error.kind = .planInvariantViolation) ∧
      ∃ optimized, (Optimizer.optimize ⟨[rule], .standard, .none⟩ (pairPlan (-7) 1)).outcome =
        .ok optimized := by
  constructor
  · have behind : ¬ Admitted [⟨"x", .int⟩] (.table pair)
        [.absOf (.ref 0 .int), .ref 2 .int] :=
      fun admitted => absurd (admitted.exposed 2 (by decide)) (by decide)
    have place : pairPlan (-7) 2 = Context.hole.fill (pairPlan (-7) 2) := rfl
    have enough : (pairPlan (-7) 2).nodes.countP applies ≤
        Settings.standard.maxFirings.toNat := by decide
    exact (optimize_of_dangling rfl enough place rfl rfl rfl (List.mem_of_elem_eq_true rfl)
      (Nat.le_succ 1)).1 (.inr behind)
  · have admitted : Admitted [⟨"x", .int⟩] (.table pair)
        [.absOf (.ref 0 .int), .ref 1 .int] :=
      ⟨List.forall_mem_singleton.mpr (by decide), by decide⟩
    have place : pairPlan (-7) 1 = Context.hole.fill (pairPlan (-7) 1) := rfl
    have enough : (pairPlan (-7) 1).nodes.countP applies ≤
        Settings.standard.maxFirings.toNat := by decide
    have splittable : ∀ correlation left right,
        .correlate correlation left right ∈ (pairPlan (-7) 1).nodes →
          applies (.correlate correlation left right) = true →
            Splittable .standard correlation left.schema right := by
      intro correlation left right member _
      obtain ⟨rfl, rfl, rfl⟩ : correlation = _ ∧ left = _ ∧ right = _ := by
        simpa [pairPlan, pairScan, nodes, nodesAll] using member
      exact ⟨rfl, rfl, fun projection below merged isProject => by cases isProject⟩
    exact ((optimize_of_dangling rfl enough place rfl rfl rfl (List.mem_of_elem_eq_true rfl)
      (Nat.le_refl 1)).2 (by simp [Context.before]) admitted rfl splittable).1

/-- A dangling reference that no run reports: the plan can not be executed, and after the run it
gives the absolute value in both fields. -/
theorem optimize_captures_pairPlan :
    applies (pairPlan (-7) 1) = true ∧
      (pairPlan (-7) 1).nodes.countP applies ≤ Settings.standard.maxFirings.toNat ∧
        Settings.standard.validates = true ∧
          (pairPlan (-7) 1).execute = .error (.shortRow 1 1) ∧
            (Optimizer.optimize ⟨[rule], .standard, .none⟩ (pairPlan (-7) 1)).outcome =
              .ok (splitPairPlan (-7) 1) ∧
                (splitPairPlan (-7) 1).execute = .ok ⟨[⟨"x", .int⟩, ⟨"a", .int⟩, ⟨"b", .int⟩],
                  [[.int (-7), .int 7, .int 7]]⟩ := by
  refine ⟨rfl, ?_, rfl, rfl, rfl, rfl⟩
  decide

end Lateral.DialectSplit
