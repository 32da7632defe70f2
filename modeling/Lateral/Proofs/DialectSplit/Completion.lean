import Lateral.Proofs.DialectSplit.Sites
import Lateral.Proofs.Optimizer.Histories

/-!
# Runs split every correlate

A run of the rule that ends well splits as many correlates as its settings admit, one
with each firing, and all that the rule applies to when these are no more
(`optimize_splits_all`). What it leaves then is left alone by every later run.
-/

namespace Lateral.DialectSplit

open Plan

variable {settings : Settings}

/-- A plan has a site for each node that the rule applies to. -/
theorem length_sites (plan : Plan) : (sites plan).length = plan.nodes.countP applies := by
  rw [sites, List.length_filterMap_eq_countP]
  simp only [isSome_site?]

/-- A firing of the rule is reported under its name. -/
theorem rule_of_step {plan : Plan} {firing : Firing Plan}
    (fired : (plan.step [rule] settings).outcome = .ok (some firing)) : firing.rule = ruleName := by
  obtain ⟨context, node, replacement, decides, -⟩ :=
    (step_tells [rule] settings plan).ofSome firing fired
  obtain ⟨other, member, -, -, isName⟩ :=
    (tryRules_tells settings node [rule]).ofSome _ decides.ends
  obtain rfl : other = rule := List.mem_singleton.mp member
  exact isName

/-- All firings of steps are firings of the rule. -/
theorem names_of_steps {names : List String} {plan last : Plan}
    (steps : Steps [rule] settings names plan last) :
    names = List.replicate names.length ruleName := by
  induction steps with
  | none plan => rfl
  | next fired checked rest inductionHypothesis =>
      rw [List.length_cons, List.replicate_succ, ← inductionHypothesis, rule_of_step fired]

/-- A plan that the rule applies nowhere in is left alone by every run of the rule. -/
theorem optimize_of_applies_eq_false {plan : Plan}
    (noneApplies : ∀ node ∈ plan.nodes, applies node = false) (settings : Settings)
    (firings : Firings) :
    (Optimizer.optimize ⟨[rule], settings, firings⟩ plan).outcome = .ok plan ∧
      (Optimizer.optimize ⟨[rule], settings, firings⟩ plan).firings = firings := by
  have idle : ∀ trial ∈ plan.trials [rule], trial.verdict settings = .ok none :=
    step_eq_none_iff_trials.mp (step_eq_none_iff.mpr (passed_of_applies_eq_false noneApplies))
  have ends : Ends [rule] settings settings.maxFirings.toNat plan [] (.ok plan) :=
    .finished (.none plan) (Nat.zero_le _) fun _ => idle
  exact ends.transformUpTo firings

/-- The sites that steps leave when they end a run well: none, or those beyond the firings that are
admitted. -/
theorem length_of_steps {names : List String} {plan last : Plan} {limit : Nat}
    (steps : Steps [rule] settings names plan last) (short : names.length ≤ limit)
    (quiet : names.length < limit → (last.step [rule] settings).outcome = .ok none) :
    names.length = min (plan.nodes.countP applies) limit ∧
      last.nodes.countP applies = plan.nodes.countP applies - names.length := by
  obtain ⟨taken, count, front⟩ := sites_of_steps steps
  have total : plan.nodes.countP applies = names.length + last.nodes.countP applies := by
    rw [← length_sites, ← length_sites, front, List.length_append, count]
  by_cases below : names.length < limit
  · have noneLeft : last.nodes.countP applies = 0 :=
      List.countP_eq_zero.mpr fun node member => by
        simp [applies_eq_false_of_step (quiet below) node member]
    omega
  · omega

/-- With as many firings admitted as there are sites, steps that end a run well leave a plan that the
rule applies nowhere in. -/
theorem applies_eq_false_of_steps {names : List String} {plan last : Plan} {limit : Nat}
    (steps : Steps [rule] settings names plan last) (short : names.length ≤ limit)
    (quiet : names.length < limit → (last.step [rule] settings).outcome = .ok none)
    (enough : plan.nodes.countP applies ≤ limit) : ∀ node ∈ last.nodes, applies node = false := by
  obtain ⟨fired, left⟩ := length_of_steps steps short quiet
  have noneLeft : last.nodes.countP applies = 0 := by
    rw [left, fired, Nat.min_eq_left enough, Nat.sub_self]
  simpa using List.countP_eq_zero.mp noneLeft

/-- A run of the rule that ends well splits as many of the correlates that the rule applies to as
there are, or as the settings admit. It fires once for each of them, as the counter of the rule
tells, and the rule applies to the others and to nothing else in the result. When all of them are
split, the rule applies nowhere in the result, and no later run, under any settings, fires on it or
changes it. -/
theorem optimize_splits_all {firings : Firings} {plan optimized : Plan}
    (optimizes : (Optimizer.optimize ⟨[rule], settings, firings⟩ plan).outcome = .ok optimized) :
    ∃ fired, fired = min (plan.nodes.countP applies) settings.maxFirings.toNat ∧
      Steps [rule] settings (List.replicate fired ruleName) plan optimized ∧
      (firings.Ascending →
        ((Optimizer.optimize ⟨[rule], settings, firings⟩ plan).firings.count ruleName -
          firings.count ruleName).toNat = fired) ∧
      optimized.nodes.countP applies = plan.nodes.countP applies - fired ∧
      (plan.nodes.countP applies ≤ settings.maxFirings.toNat →
        (∀ node ∈ optimized.nodes, applies node = false) ∧
          ∀ (later : Settings) (counted : Firings),
            (Optimizer.optimize ⟨[rule], later, counted⟩ optimized).outcome = .ok optimized ∧
              (Optimizer.optimize ⟨[rule], later, counted⟩ optimized).firings = counted) := by
  obtain ⟨names, steps, short, quiet⟩ := transformUpTo_eq_ok_iff.mp optimizes
  obtain ⟨fired, left⟩ := length_of_steps steps short quiet
  have ends : Ends [rule] settings settings.maxFirings.toNat plan names (.ok optimized) :=
    .finished steps short fun below => step_eq_none_iff_trials.mp (quiet below)
  refine ⟨names.length, fired, names_of_steps steps ▸ steps, fun ascending => ?_, left,
    fun enough => ?_⟩
  · have counted : (Optimizer.optimize ⟨[rule], settings, firings⟩ plan).firings =
        firings.recordAll names := (ends.transformUpTo firings).2
    have allNames : names.count ruleName = names.length := by
      rw [names_of_steps steps, List.count_replicate_self, List.length_replicate]
    have small : names.length < UInt32.size :=
      Nat.lt_of_le_of_lt short settings.maxFirings.toNat_lt
    rw [counted, Firings.count_recordAll ascending, allNames, UInt32.add_comm,
      UInt32.add_sub_cancel, UInt32.toNat_ofNat_of_lt' small]
  · have noneApplies := applies_eq_false_of_steps steps short quiet enough
    exact ⟨noneApplies, optimize_of_applies_eq_false noneApplies⟩

/-- A correlate over a correlate, both of them to be split. -/
def nestedPlan : Plan :=
  .correlate ⟨1, .empty, .left, .sensitive⟩ (pairPlan (-7) 0)
    (pairScan (.absOf (.ref 1 .int)) (.ref 0 .int))

/-- With one firing admitted one of the two correlates is split, counted and the other one left to be
split, and with more of them none is left. -/
theorem optimize_splits_all_nestedPlan :
    (∃ run optimized,
      run = Optimizer.optimize ⟨[rule], { Settings.standard with maxFirings := 1 }, .none⟩ nestedPlan ∧
        run.outcome = .ok optimized ∧ optimized.nodes.countP applies = 1 ∧
          (run.firings.count ruleName - Firings.none.count ruleName).toNat = 1) ∧
    ∃ optimized, (Optimizer.optimize ⟨[rule], .standard, .none⟩ nestedPlan).outcome =
      .ok optimized ∧ ∀ node ∈ optimized.nodes, applies node = false := by
  constructor
  · have optimizes : ∃ optimized, (Optimizer.optimize
        ⟨[rule], { Settings.standard with maxFirings := 1 }, .none⟩ nestedPlan).outcome =
          .ok optimized := ⟨_, rfl⟩
    obtain ⟨optimized, optimizes⟩ := optimizes
    obtain ⟨fired, count, -, counted, left, -⟩ := optimize_splits_all optimizes
    have total : nestedPlan.nodes.countP applies = 2 := by decide
    have once : fired = 1 := by
      rw [count, total]
      decide
    refine ⟨_, optimized, rfl, optimizes, ?_, ?_⟩
    · rw [left, once, total]
    · rw [counted Firings.ascending_none, once]
  · have optimizes : ∃ optimized,
        (Optimizer.optimize ⟨[rule], .standard, .none⟩ nestedPlan).outcome = .ok optimized :=
      ⟨_, rfl⟩
    obtain ⟨optimized, optimizes⟩ := optimizes
    obtain ⟨-, -, -, -, -, all⟩ := optimize_splits_all optimizes
    exact ⟨optimized, optimizes, (all (by decide)).1⟩

end Lateral.DialectSplit
