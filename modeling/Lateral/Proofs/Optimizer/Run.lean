import Lateral.Optimizer.Basic
import Lateral.Proofs.Optimizer.Step

/-!
# What a run does

A run is a chain of steps, each with a firing whose plan passes the check of the
settings (`Steps`). It ends well when the firings are used up or no rule comes to
anything any more (`transformUpTo_eq_ok_iff`), and with an error when a rule fails
or a plan does not pass the check (`transformUpTo_eq_error_iff`). What every step
keeps holds at the end of a run (`Steps.keeps`).
-/

namespace Lateral

open Plan

variable {rules : List Rule} {settings : Settings}

/-- Steps of the optimizer from one plan to another, with the names of the rules that fired. -/
inductive Steps (rules : List Rule) (settings : Settings) : List String → Plan → Plan → Prop where
  | none (plan : Plan) : Steps rules settings [] plan plan
  | next {plan last : Plan} {firing : Firing Plan} {names : List String}
      (fired : (plan.step rules settings).outcome = .ok (some firing))
      (checked : settings.check firing.result = .ok ())
      (rest : Steps rules settings names firing.result last) :
      Steps rules settings (firing.rule :: names) plan last

/-- What each step keeps is kept by all steps of a run. -/
theorem Steps.keeps {names : List String} {plan last : Plan}
    (steps : Steps rules settings names plan last) (kept : Plan → Prop)
    (keepsStep : ∀ plan firing, (plan.step rules settings).outcome = .ok (some firing) →
      settings.check firing.result = .ok () → kept plan → kept firing.result)
    (start : kept plan) : kept last := by
  induction steps with
  | none plan => exact start
  | next fired checked rest inductionHypothesis =>
      exact inductionHypothesis (keepsStep _ _ fired checked start)

/-- What a run can meet at a plan: a failing rule, nothing to do, a plan that does not pass the
check, or one that does. -/
theorem stepEnds_cases (rules : List Rule) (settings : Settings) (plan : Plan) :
    (∃ error, (plan.step rules settings).outcome = .error error) ∨
      (plan.step rules settings).outcome = .ok none ∨
      (∃ firing error, (plan.step rules settings).outcome = .ok (some firing) ∧
        settings.check firing.result = .error error) ∨
      ∃ firing, (plan.step rules settings).outcome = .ok (some firing) ∧
        settings.check firing.result = .ok () := by
  cases ended : (plan.step rules settings).outcome with
  | error error => exact .inl ⟨error, rfl⟩
  | ok found =>
      cases found with
      | none => exact .inr (.inl rfl)
      | some firing =>
          cases checks : settings.check firing.result with
          | error error => exact .inr (.inr (.inl ⟨firing, error, rfl, checks⟩))
          | ok result => exact .inr (.inr (.inr ⟨firing, rfl, checks⟩))

section Step

variable {remaining : Nat} {firings : Firings} {plan : Plan}

/-- A run ends where there is nothing to do. -/
theorem outcome_transformUpTo_of_none (ended : (plan.step rules settings).outcome = .ok none) :
    (transformUpTo rules settings (remaining + 1) firings plan).outcome = .ok plan := by
  simp [transformUpTo, ended]

/-- A run fails where its step fails. -/
theorem outcome_transformUpTo_of_error {error : Error}
    (ended : (plan.step rules settings).outcome = .error error) :
    (transformUpTo rules settings (remaining + 1) firings plan).outcome = .error error := by
  simp [transformUpTo, ended]

/-- A run fails where a plan does not pass the check. -/
theorem outcome_transformUpTo_of_check {firing : Firing Plan} {error : Error}
    (ended : (plan.step rules settings).outcome = .ok (some firing))
    (checks : settings.check firing.result = .error error) :
    (transformUpTo rules settings (remaining + 1) firings plan).outcome = .error error := by
  simp [transformUpTo, ended, checks]

/-- A run goes on where a plan passes the check. -/
theorem transformUpTo_of_some {firing : Firing Plan}
    (ended : (plan.step rules settings).outcome = .ok (some firing))
    (checks : settings.check firing.result = .ok ()) :
    transformUpTo rules settings (remaining + 1) firings plan =
      (transformUpTo rules settings remaining (firings.record firing.rule) firing.result).behind
        (plan.step rules settings).log := by
  simp [transformUpTo, ended, checks]

theorem outcome_transformUpTo_of_some {firing : Firing Plan}
    (ended : (plan.step rules settings).outcome = .ok (some firing))
    (checks : settings.check firing.result = .ok ()) :
    (transformUpTo rules settings (remaining + 1) firings plan).outcome =
      (transformUpTo rules settings remaining (firings.record firing.rule) firing.result).outcome := by
  rw [transformUpTo_of_some ended checks]
  rfl

end Step

/-- How a run ends well: behind as many steps as are admitted, or behind fewer when there is
nothing left to do. -/
theorem transformUpTo_eq_ok_iff {remaining : Nat} {firings : Firings} {plan last : Plan} :
    (transformUpTo rules settings remaining firings plan).outcome = .ok last ↔
      ∃ names, Steps rules settings names plan last ∧ names.length ≤ remaining ∧
        (names.length < remaining → (last.step rules settings).outcome = .ok none) := by
  constructor
  · intro ended
    induction remaining generalizing firings plan with
    | zero =>
        obtain rfl : plan = last := Except.ok.inj ended
        exact ⟨[], .none plan, Nat.le_refl 0, by simp⟩
    | succ remaining inductionHypothesis =>
        rcases stepEnds_cases rules settings plan with
          ⟨error, stepEnded⟩ | stepEnded | ⟨firing, error, stepEnded, checks⟩ |
            ⟨firing, stepEnded, checks⟩
        · rw [outcome_transformUpTo_of_error stepEnded] at ended
          cases ended
        · rw [outcome_transformUpTo_of_none stepEnded] at ended
          obtain rfl : plan = last := Except.ok.inj ended
          exact ⟨[], .none plan, Nat.zero_le _, fun _ => stepEnded⟩
        · rw [outcome_transformUpTo_of_check stepEnded checks] at ended
          cases ended
        · rw [outcome_transformUpTo_of_some stepEnded checks] at ended
          obtain ⟨names, steps, short, quiet⟩ := inductionHypothesis ended
          exact ⟨firing.rule :: names, .next stepEnded checks steps, Nat.succ_le_succ short,
            fun below => quiet (Nat.lt_of_succ_lt_succ below)⟩
  · rintro ⟨names, steps, short, quiet⟩
    induction steps generalizing remaining firings with
    | none plan =>
        cases remaining with
        | zero => rfl
        | succ remaining => exact outcome_transformUpTo_of_none (quiet (Nat.succ_pos remaining))
    | next fired checked rest inductionHypothesis =>
        cases remaining with
        | zero => cases short
        | succ remaining =>
            rw [outcome_transformUpTo_of_some fired checked]
            exact inductionHypothesis (Nat.le_of_succ_le_succ short)
              fun below => quiet (Nat.succ_lt_succ below)

/-- How a run fails: behind fewer steps than are admitted a rule fails, or a plan does not pass the
check. -/
theorem transformUpTo_eq_error_iff {remaining : Nat} {firings : Firings} {plan : Plan}
    {error : Error} :
    (transformUpTo rules settings remaining firings plan).outcome = .error error ↔
      ∃ names last, Steps rules settings names plan last ∧ names.length < remaining ∧
        ((last.step rules settings).outcome = .error error ∨
          ∃ firing, (last.step rules settings).outcome = .ok (some firing) ∧
            settings.check firing.result = .error error) := by
  constructor
  · intro ended
    induction remaining generalizing firings plan with
    | zero => cases ended
    | succ remaining inductionHypothesis =>
        rcases stepEnds_cases rules settings plan with
          ⟨stepError, stepEnded⟩ | stepEnded | ⟨firing, checkError, stepEnded, checks⟩ |
            ⟨firing, stepEnded, checks⟩
        · rw [outcome_transformUpTo_of_error stepEnded] at ended
          obtain rfl : stepError = error := Except.error.inj ended
          exact ⟨[], plan, .none plan, Nat.succ_pos remaining, .inl stepEnded⟩
        · rw [outcome_transformUpTo_of_none stepEnded] at ended
          cases ended
        · rw [outcome_transformUpTo_of_check stepEnded checks] at ended
          obtain rfl : checkError = error := Except.error.inj ended
          exact ⟨[], plan, .none plan, Nat.succ_pos remaining, .inr ⟨firing, stepEnded, checks⟩⟩
        · rw [outcome_transformUpTo_of_some stepEnded checks] at ended
          obtain ⟨names, last, steps, short, fails⟩ := inductionHypothesis ended
          exact ⟨firing.rule :: names, last, .next stepEnded checks steps,
            Nat.succ_lt_succ short, fails⟩
  · rintro ⟨names, last, steps, short, fails⟩
    induction steps generalizing remaining firings with
    | none plan =>
        cases remaining with
        | zero => cases short
        | succ remaining =>
            rcases fails with stepEnded | ⟨firing, stepEnded, checks⟩
            · exact outcome_transformUpTo_of_error stepEnded
            · exact outcome_transformUpTo_of_check stepEnded checks
    | next fired checked rest inductionHypothesis =>
        cases remaining with
        | zero => cases short
        | succ remaining =>
            rw [outcome_transformUpTo_of_some fired checked]
            exact inductionHypothesis (Nat.lt_of_succ_lt_succ short) fails

end Lateral
