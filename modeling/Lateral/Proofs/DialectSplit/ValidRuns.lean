import Lateral.Proofs.DialectSplit.Step

/-!
# Runs on valid plans

A split anywhere in a valid plan leaves the plan valid (`Split.valid_fill`), so
every plan of a run on a valid plan is valid (`valid_of_steps`), and validating
them changes nothing about the run (`run_eq_of_validates`).
-/

namespace Lateral.DialectSplit

open Plan

variable {settings : Settings}

/-- A split keeps the plan around the correlate valid. -/
theorem Split.valid_fill {correlation : Correlation} {left right : Plan}
    (split : Split settings correlation left right) (context : Context) {row : Option Schema}
    (valid : (context.fill (.correlate correlation left right)).Valid settings.caseRule row) :
    (context.fill split.replacement).Valid settings.caseRule row :=
  context.valid_fill split.schema_replacement (fun _ => split.valid_replacement) valid

/-- A step keeps a plan valid. -/
theorem valid_of_step {plan : Plan} {firing : Firing Plan} {row : Option Schema}
    (fired : (plan.step [rule] settings).outcome = .ok (some firing))
    (valid : plan.Valid settings.caseRule row) : firing.result.Valid settings.caseRule row := by
  obtain ⟨context, correlation, left, right, split, rfl, -, -, isResult⟩ :=
    exists_split_of_step fired
  rw [isResult]
  exact split.valid_fill context valid

/-- All steps of a run keep a plan valid. -/
theorem valid_of_steps {names : List String} {plan last : Plan} {row : Option Schema}
    (steps : Steps [rule] settings names plan last) (valid : plan.Valid settings.caseRule row) :
    last.Valid settings.caseRule row :=
  steps.keeps (Valid settings.caseRule row) (fun _ _ fired _ => valid_of_step fired) valid

/-- Validating transformed plans changes nothing about a run on a valid plan. -/
theorem run_eq_of_validates {remaining : Nat} {firings : Firings} {plan : Plan}
    (valid : plan.Valid settings.caseRule none) :
    transformUpTo [rule] { settings with validates := true } remaining firings plan =
      transformUpTo [rule] { settings with validates := false } remaining firings plan := by
  induction remaining generalizing firings plan with
  | zero => rfl
  | succ remaining inductionHypothesis =>
      have sameStep : plan.step [rule] { settings with validates := true } =
          plan.step [rule] { settings with validates := false } :=
        step_eq_of_caseRule_eq (by rfl) plan
      rw [transformUpTo, transformUpTo, sameStep]
      simp only
      split
      · rfl
      · rfl
      · next firing fired =>
          have firingValid : firing.result.validate settings.caseRule none = .ok () :=
            @valid_of_step { settings with validates := false } plan firing none fired valid
          simp only [Settings.check, if_true, Bool.false_eq_true, if_false, firingValid,
            inductionHypothesis firingValid]

/-- A plan that the validator accepts is still accepted when any of its nodes gives place to what
the rule makes of it, the ancestors being rebuilt. A run on it ends in the same way, with the same
plan, whether transformed plans are validated or not. -/
theorem splitting_keeps_valid (settings : Settings) (plan : Plan) :
    (∀ row node replacement result, plan.Valid settings.caseRule row →
      (transform settings node).outcome = .ok (some replacement) →
        Replaces node replacement plan result → result.Valid settings.caseRule row) ∧
      (plan.Valid settings.caseRule none → ∀ firings,
        Optimizer.optimize ⟨[rule], { settings with validates := true }, firings⟩ plan =
          Optimizer.optimize ⟨[rule], { settings with validates := false }, firings⟩ plan) := by
  constructor
  · intro row node replacement result valid transformed replaced
    obtain ⟨correlation, left, right, rfl, split, rfl⟩ := transform_eq_some_iff.mp transformed
    obtain ⟨context, rfl, rfl⟩ := replaces_iff_exists_context.mp replaced
    exact split.valid_fill context valid
  · intro valid firings
    exact run_eq_of_validates valid

/-- A projection over a correlate stays valid when the correlate is split, and the run is the same
with validation and without. -/
theorem splitting_keeps_valid_pairPlan :
    (Plan.project ⟨[.ref 2 .int], ["b"]⟩ (splitPairPlan (-7) 0)).Valid .sensitive none ∧
      Optimizer.optimize ⟨[rule], { Settings.standard with validates := true }, .none⟩
          (.project ⟨[.ref 2 .int], ["b"]⟩ (pairPlan (-7) 0)) =
        Optimizer.optimize ⟨[rule], { Settings.standard with validates := false }, .none⟩
          (.project ⟨[.ref 2 .int], ["b"]⟩ (pairPlan (-7) 0)) := by
  have keeps := splitting_keeps_valid .standard
    (.project ⟨[.ref 2 .int], ["b"]⟩ (pairPlan (-7) 0))
  have place : Replaces (pairPlan (-7) 0) (splitPairPlan (-7) 0)
      (.project ⟨[.ref 2 .int], ["b"]⟩ (pairPlan (-7) 0))
      (.project ⟨[.ref 2 .int], ["b"]⟩ (splitPairPlan (-7) 0)) :=
    replaces_iff_exists_context.mpr ⟨.project ⟨[.ref 2 .int], ["b"]⟩ .hole, rfl, rfl⟩
  exact ⟨keeps.1 none _ _ _ rfl rfl place, keeps.2 rfl .none⟩

end Lateral.DialectSplit
