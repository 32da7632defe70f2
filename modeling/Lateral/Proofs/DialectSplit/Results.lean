import Lateral.Proofs.DialectSplit.Execution
import Lateral.Proofs.DialectSplit.Sites
import Lateral.Proofs.DialectSplit.ValidRuns

/-!
# Runs keep results

A run that ends well keeps the schema of a plan, be the plan valid or not
(`optimize_keeps_schema`). On a valid plan it ends with a plan that has each of its
successful executions (`execute_optimized`). Where no split has to merge projections, it
ends with a plan that has no others (`execute_of_execute_optimized`).
-/

namespace Lateral.DialectSplit

open Plan

variable {settings : Settings}

/-- A step keeps the schema of a plan: the split has the row of its correlate, and from it every
operator above derives the row that it had. -/
theorem schema_of_step {plan : Plan} {firing : Firing Plan}
    (fired : (plan.step [rule] settings).outcome = .ok (some firing)) :
    firing.result.schema = plan.schema := by
  obtain ⟨context, correlation, left, right, split, rfl, -, -, isResult⟩ :=
    exists_split_of_step fired
  rw [isResult]
  exact context.schema_fill split.schema_replacement

/-- All steps of a run keep the schema of a plan. -/
theorem schema_of_steps {names : List String} {plan last : Plan}
    (steps : Steps [rule] settings names plan last) : last.schema = plan.schema :=
  steps.keeps (fun current => current.schema = plan.schema)
    (fun _ _ fired _ same => (schema_of_step fired).trans same) rfl

/-- A run of the rule that ends well keeps the schema of a plan, under all settings and whether the
plan is valid or not: the same names with the same types in the same order. -/
theorem optimize_keeps_schema {firings : Firings} {plan optimized : Plan}
    (optimizes : (Optimizer.optimize ⟨[rule], settings, firings⟩ plan).outcome = .ok optimized) :
    optimized.schema = plan.schema := by
  obtain ⟨names, steps, -, -⟩ := transformUpTo_eq_ok_iff.mp optimizes
  exact schema_of_steps steps

/-- A correlate over a correlate to be split. Its right input has the name of a left field twice, and
a row that is too short. -/
def clashingPlan : Plan :=
  .correlate ⟨1, .empty, .left, .sensitive⟩ (pairPlan (-7) 0)
    (.values [⟨"x", .int⟩, ⟨"x", .string⟩] [[.null]])

/-- The split below leaves the names as they are that the correlate above gives to its fields. -/
theorem optimize_keeps_schema_clashingPlan :
    ¬ clashingPlan.Valid .sensitive none ∧
      ∃ optimized, (Optimizer.optimize
          ⟨[rule], { Settings.standard with validates := false }, .none⟩ clashingPlan).outcome =
            .ok optimized ∧ optimized.nodes.countP applies < clashingPlan.nodes.countP applies ∧
              optimized.schema = [⟨"x", .int⟩, ⟨"a", .int⟩, ⟨"b", .int⟩, ⟨"x0", .int⟩,
                ⟨"x1", .string⟩] := by
  constructor
  · intro valid
    obtain ⟨-, -, rightValid⟩ := valid_correlate_iff.mp valid
    exact absurd (valid_values_iff.mp rightValid [.null] List.mem_cons_self) (by decide)
  · have optimizes : ∃ optimized, (Optimizer.optimize
        ⟨[rule], { Settings.standard with validates := false }, .none⟩ clashingPlan).outcome =
          .ok optimized ∧ optimized.nodes.countP applies < clashingPlan.nodes.countP applies :=
      ⟨_, rfl, by decide⟩
    obtain ⟨optimized, optimizes, fewer⟩ := optimizes
    exact ⟨optimized, optimizes, fewer, (optimize_keeps_schema optimizes).trans rfl⟩

/-- A step on a valid plan has every successful execution of the plan. -/
theorem refines_of_step {plan : Plan} {firing : Firing Plan} {row : Option Schema}
    (fired : (plan.step [rule] settings).outcome = .ok (some firing))
    (valid : plan.Valid settings.caseRule row) : Refines plan firing.result := by
  obtain ⟨context, correlation, left, right, split, rfl, -, -, isResult⟩ :=
    exists_split_of_step fired
  obtain ⟨nodeRow, nodeValid⟩ := valid.of_mem_nodes (context.mem_nodes_fill _)
  rw [isResult]
  exact (split.refines nodeValid).fill context

/-- A plan that validates executes to the same relation after a run of the rule as before, if the
run ends well and the plan executes: the same rows in the same order, and the same schema. -/
theorem execute_optimized {firings : Firings} {plan optimized : Plan} {relation : Relation}
    (valid : plan.Valid settings.caseRule none)
    (optimizes : (Optimizer.optimize ⟨[rule], settings, firings⟩ plan).outcome = .ok optimized)
    (executes : plan.execute = .ok relation) : optimized.execute = .ok relation := by
  obtain ⟨names, steps, -, -⟩ := transformUpTo_eq_ok_iff.mp optimizes
  have kept := steps.keeps
    (fun current => current.Valid settings.caseRule none ∧ Refines plan current)
    (fun current firing fired _ ⟨currentValid, refines⟩ =>
      ⟨valid_of_step fired currentValid, refines.trans (refines_of_step fired currentValid)⟩)
    ⟨valid, .refl plan⟩
  exact kept.2.execute executes

/-- The correlate of a row with its absolute value gives the same relation when it is split. -/
theorem execute_optimized_pairPlan :
    (splitPairPlan (-7) 0).execute =
      .ok ⟨[⟨"x", .int⟩, ⟨"a", .int⟩, ⟨"b", .int⟩], [[.int (-7), .int 7, .int (-7)]]⟩ :=
  have valid : (pairPlan (-7) 0).Valid Settings.standard.caseRule none := rfl
  have optimizes : (Optimizer.optimize ⟨[rule], .standard, .none⟩ (pairPlan (-7) 0)).outcome =
      .ok (splitPairPlan (-7) 0) := rfl
  execute_optimized valid optimizes rfl

/-- No site of the plan has more than one projection over its scan. -/
def Short (plan : Plan) : Prop :=
  ∀ site ∈ sites plan, site.right.stackedProjections ≤ 1

/-- A plan is short when each correlate is that the rule applies to. -/
theorem short_iff {plan : Plan} :
    Short plan ↔ ∀ correlation left right, .correlate correlation left right ∈ plan.nodes →
      applies (.correlate correlation left right) = true → right.stackedProjections ≤ 1 := by
  constructor
  · intro short correlation left right member appliesHere
    obtain ⟨chain, isChain, isSite⟩ := exists_site appliesHere
    have siteShort := short _ (List.mem_filterMap.mpr ⟨_, member, isSite⟩)
    rwa [(schema_of_chain? isChain).2] at siteShort
  · intro short site member
    obtain ⟨node, nodeMember, isSite⟩ := List.mem_filterMap.mp member
    obtain ⟨correlation, left, right, chain, rfl, appliesHere, isChain, rfl⟩ :=
      site?_eq_some_iff.mp isSite
    rw [(schema_of_chain? isChain).2]
    exact short correlation left right nodeMember appliesHere

/-- A valid plan that is short has every successful execution of the plan after a step. -/
theorem refines_back_of_step {plan : Plan} {firing : Firing Plan} {row : Option Schema}
    (fired : (plan.step [rule] settings).outcome = .ok (some firing))
    (valid : plan.Valid settings.caseRule row) (short : Short plan) :
    Refines firing.result plan := by
  obtain ⟨context, correlation, left, right, split, rfl, appliesHere, -, isResult⟩ :=
    exists_split_of_step fired
  obtain ⟨nodeRow, nodeValid⟩ := valid.of_mem_nodes (context.mem_nodes_fill _)
  have rightShort := short_iff.mp short correlation left right (context.mem_nodes_fill _) appliesHere
  rw [isResult]
  exact (split.refines_back nodeValid rightShort).fill context

/-- A step keeps a plan short. -/
theorem short_of_step {plan : Plan} {firing : Firing Plan}
    (fired : (plan.step [rule] settings).outcome = .ok (some firing)) (short : Short plan) :
    Short firing.result := by
  obtain ⟨site, isFirst⟩ := sites_of_step fired
  intro other member
  exact short other (isFirst ▸ List.mem_cons_of_mem site member)

/-- A plan that validates, and in which the rule applies to no correlate with two or more
projections over its scan, executes whenever it does after a run of the rule that ends well, and to
the same relation. So where it fails to execute, it fails after the run. -/
theorem execute_of_execute_optimized {firings : Firings} {plan optimized : Plan}
    (valid : plan.Valid settings.caseRule none)
    (short : ∀ correlation left right, .correlate correlation left right ∈ plan.nodes →
      applies (.correlate correlation left right) = true → right.stackedProjections ≤ 1)
    (optimizes : (Optimizer.optimize ⟨[rule], settings, firings⟩ plan).outcome = .ok optimized) :
    (∀ relation, optimized.execute = .ok relation → plan.execute = .ok relation) ∧
      ∀ error, plan.execute = .error error → ∃ other, optimized.execute = .error other := by
  obtain ⟨names, steps, -, -⟩ := transformUpTo_eq_ok_iff.mp optimizes
  have kept := steps.keeps
    (fun current => current.Valid settings.caseRule none ∧ Short current ∧ Refines current plan)
    (fun current firing fired _ ⟨currentValid, currentShort, refines⟩ =>
      have back := refines_back_of_step fired currentValid currentShort
      ⟨valid_of_step fired currentValid, short_of_step fired currentShort, back.trans refines⟩)
    ⟨valid, short_iff.mpr short, .refl plan⟩
  have reflects : ∀ relation, optimized.execute = .ok relation → plan.execute = .ok relation :=
    fun relation executes => kept.2.2.execute executes
  refine ⟨reflects, fun error failed => ?_⟩
  cases executes : optimized.execute with
  | error other => exact ⟨other, rfl⟩
  | ok relation =>
      have planExecutes := reflects relation executes
      rw [failed] at planExecutes
      cases planExecutes

/-- The smallest integer has no absolute value, and neither the correlate nor its split gives a
row for it. -/
theorem execute_of_execute_optimized_pairPlan :
    ∃ other, (splitPairPlan Int32.minValue 0).execute = .error other := by
  have valid : (pairPlan Int32.minValue 0).Valid Settings.standard.caseRule none := rfl
  have short : ∀ correlation left right,
      .correlate correlation left right ∈ (pairPlan Int32.minValue 0).nodes →
        applies (.correlate correlation left right) = true → right.stackedProjections ≤ 1 := by
    intro correlation left right member _
    obtain ⟨-, -, rfl⟩ : _ ∧ _ ∧ right = _ := by
      simpa [pairPlan, pairScan, nodes, nodesAll] using member
    exact Nat.zero_le 1
  have optimizes : (Optimizer.optimize ⟨[rule], .standard, .none⟩
      (pairPlan Int32.minValue 0)).outcome = .ok (splitPairPlan Int32.minValue 0) := rfl
  exact (execute_of_execute_optimized valid short optimizes).2 (.call "ABS" .smallestInt) rfl

end Lateral.DialectSplit
