import Lateral.Proofs.DialectSplit.Validity
import Lateral.Proofs.Optimizer.Run

/-!
# Steps of the splitting rule

What a step does when the rule that splits correlates is the only one: it splits
the first correlate that the rule applies to (`exists_split_of_step`), finds none
(`applies_eq_false_of_step`), or fails on one (`exists_failure_of_step`). Only the
case rule matters to it (`step_eq_of_caseRule_eq`).
-/

namespace Lateral.DialectSplit

open Plan

variable {settings : Settings}

/-- The rule is tried exactly where it applies. -/
theorem accepts_rule (settings : Settings) (node : Plan) :
    rule.accepts settings node = applies node := by
  cases node <;> rfl

/-- The rule does not leave a node alone that it is tried on. -/
theorem transform_ne_none (settings : Settings) (node : Plan) :
    (transform settings node).outcome ≠ .ok none := by
  rcases transform_ends settings node with ⟨replacement, ended⟩ | ⟨error, ended, -⟩
  · simp [ended]
  · simp [ended]

/-- Trying the rule comes to nothing exactly where it does not apply. -/
theorem applies_eq_false_of_passed {nodes : List Plan} (passed : Passed [rule] settings nodes) :
    ∀ node ∈ nodes, applies node = false := by
  intro node member
  have tells := (tryRules_tells settings node [rule]).ofNone (passed node member)
  rw [Bool.eq_false_iff]
  intro appliesHere
  have leftAlone := tells rule List.mem_cons_self ((accepts_rule settings node).trans appliesHere)
  exact transform_ne_none settings node leftAlone

/-- Where the rule does not apply, trying it comes to nothing. -/
theorem passed_of_applies_eq_false {nodes : List Plan}
    (noneApplies : ∀ node ∈ nodes, applies node = false) : Passed [rule] settings nodes := by
  intro node member
  simp [tryRules, Rule.tryOn, accepts_rule, noneApplies node member, Search.orElse, Search.idle]

/-- The rule gives the split of a correlate that can be split. -/
theorem transform_split {correlation : Correlation} {left right : Plan}
    (split : Split settings correlation left right) :
    (transform settings (.correlate correlation left right)).outcome =
      .ok (some split.replacement) :=
  transform_eq_some_iff.mpr ⟨correlation, left, right, rfl, split, rfl⟩

/-- Where the rule applies and a correlate can be split, trying the rule splits it. -/
theorem tryRules_split {correlation : Correlation} {left right : Plan}
    (split : Split settings correlation left right)
    (appliesHere : applies (.correlate correlation left right) = true) :
    (tryRules settings (.correlate correlation left right) [rule]).outcome =
      .ok (some ⟨ruleName, split.replacement⟩) := by
  have transformed : (rule.transform settings (.correlate correlation left right)).outcome =
      .ok (some split.replacement) := transform_split split
  have tried : (rule.tryOn settings (.correlate correlation left right)).outcome =
      .ok (some ⟨ruleName, split.replacement⟩) := by
    rw [Rule.tryOn, if_pos ((accepts_rule settings _).trans appliesHere)]
    simp only [transformed]
    rfl
  rw [tryRules, Search.outcome_orElse_of_ne (by simp [tried]), tried]

/-- A step that finds nothing to do leaves a plan that the rule applies nowhere in. -/
theorem applies_eq_false_of_step {plan : Plan}
    (idle : (plan.step [rule] settings).outcome = .ok none) :
    ∀ node ∈ plan.nodes, applies node = false :=
  applies_eq_false_of_passed ((step_tells [rule] settings plan).ofNone idle)

/-- A step with a firing splits the first correlate that the rule applies to. -/
theorem exists_split_of_step {plan : Plan} {firing : Firing Plan}
    (fired : (plan.step [rule] settings).outcome = .ok (some firing)) :
    ∃ (context : Context) (correlation : Correlation) (left right : Plan)
      (split : Split settings correlation left right),
      plan = context.fill (.correlate correlation left right) ∧
        applies (.correlate correlation left right) = true ∧
          (∀ node ∈ context.before (.correlate correlation left right), applies node = false) ∧
            firing.result = context.fill split.replacement := by
  obtain ⟨context, node, replacement, decides, isResult⟩ :=
    (step_tells [rule] settings plan).ofSome firing fired
  obtain ⟨other, member, accepted, transformed, -⟩ :=
    (tryRules_tells settings node [rule]).ofSome _ decides.ends
  obtain rfl : other = rule := List.mem_singleton.mp member
  obtain ⟨correlation, left, right, rfl, split, rfl⟩ := transform_eq_some_iff.mp transformed
  exact ⟨context, correlation, left, right, split, decides.inPlace,
    (accepts_rule settings _).symm.trans accepted, applies_eq_false_of_passed decides.first, isResult⟩

/-- A step that fails fails on a correlate that the rule applies to. -/
theorem exists_failure_of_step {plan : Plan} {error : Error}
    (failed : (plan.step [rule] settings).outcome = .error error) :
    ∃ node ∈ plan.nodes, applies node = true ∧
      (transform settings node).outcome = .error error := by
  obtain ⟨context, node, decides⟩ := (step_tells [rule] settings plan).ofError error failed
  obtain ⟨other, member, accepted, transformed⟩ :=
    (tryRules_tells settings node [rule]).ofError error decides.ends
  obtain rfl : other = rule := List.mem_singleton.mp member
  exact ⟨node, decides.inPlace ▸ context.mem_nodes_fill node,
    (accepts_rule settings node).symm.trans accepted, transformed⟩

/-- Every failure of a run violates an invariant of plans. -/
theorem kind_of_optimize_error {firings : Firings} {plan : Plan} {error : Error}
    (failed : (Optimizer.optimize ⟨[rule], settings, firings⟩ plan).outcome = .error error) :
    error.kind = .planInvariantViolation := by
  obtain ⟨names, last, -, -, stepFailed | ⟨firing, -, rejected⟩⟩ :=
    transformUpTo_eq_error_iff.mp failed
  · obtain ⟨node, -, -, transformFailed⟩ := exists_failure_of_step stepFailed
    rcases transform_ends settings node with ⟨replacement, ended⟩ | ⟨other, ended, kind⟩
    · simp [ended] at transformFailed
    · obtain rfl : other = error := by simpa [ended] using transformFailed
      exact kind
  · unfold Settings.check at rejected
    split at rejected
    · exact kind_of_validate_error rejected
    · cases rejected

/-- The rule looks at the case rule of the settings only. -/
theorem transform_eq_of_caseRule_eq {other : Settings}
    (sameCase : settings.caseRule = other.caseRule) (node : Plan) :
    transform settings node = transform other node := by
  simp only [transform, splitCall, assemble, sameCase]

/-- A step of the rule depends on the case rule of the settings only. -/
theorem step_eq_of_caseRule_eq {other : Settings} (sameCase : settings.caseRule = other.caseRule)
    (plan : Plan) : plan.step [rule] settings = plan.step [rule] other := by
  refine step_congr (fun node => ?_) plan
  have sameTransform : rule.transform settings node = rule.transform other node :=
    transform_eq_of_caseRule_eq sameCase node
  simp only [tryRules, Rule.tryOn, accepts_rule, sameTransform]

end Lateral.DialectSplit
