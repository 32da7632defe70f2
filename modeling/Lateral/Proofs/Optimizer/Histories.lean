import Mathlib.Data.List.Forall2
import Lateral.Proofs.Optimizer.Firings
import Lateral.Proofs.Optimizer.Run
import Lateral.Proofs.Optimizer.Trials

/-!
# Histories of an optimizer

`Ends` relates a plan to the replacements that a run makes in it, by the names of
their rules, and to the way in which the run ends: with a plan, with the error of a
rule, or with a replacement that does not pass the check of the settings. Each run
ends in one way (`exists_ends`), which does not depend on the counters that it starts
with, and adds its replacements to them (`Ends.transformUpTo`). Over runs one after
the other the counters add up, failed runs included (`count_optimizeAll`).
-/

namespace Lateral

open Plan

variable {rules : List Rule} {settings : Settings}

/-- How a run of at most `limit` firings ends, with the names of the rules that made a replacement
in it. -/
inductive Ends (rules : List Rule) (settings : Settings) (limit : Nat) (plan : Plan) :
    List String → Except Error Plan → Prop where
  /-- No more firings are admitted, or no trial comes to anything any more. -/
  | finished {names : List String} {last : Plan} (steps : Steps rules settings names plan last)
      (short : names.length ≤ limit)
      (quiet : names.length < limit →
        ∀ trial ∈ last.trials rules, trial.verdict settings = .ok none) :
      Ends rules settings limit plan names (.ok last)
  /-- A rule fails. -/
  | failed {names : List String} {last : Plan} {error : Error}
      (steps : Steps rules settings names plan last) (short : names.length < limit)
      (fails : (last.step rules settings).outcome = .error error) :
      Ends rules settings limit plan names (.error error)
  /-- A replacement is made, and the plan with it does not pass the check. -/
  | rejected {names : List String} {last : Plan} {firing : Firing Plan} {error : Error}
      (steps : Steps rules settings names plan last) (short : names.length < limit)
      (fired : (last.step rules settings).outcome = .ok (some firing))
      (rejects : settings.check firing.result = .error error) :
      Ends rules settings limit plan (names ++ [firing.rule]) (.error error)

/-- A run ends as what is left of it behind some of its steps. -/
theorem Steps.transformUpTo_add {names : List String} {plan last : Plan}
    (steps : Steps rules settings names plan last) (remaining : Nat) (firings : Firings) :
    (transformUpTo rules settings (names.length + remaining) firings plan).outcome =
        (transformUpTo rules settings remaining (firings.recordAll names) last).outcome ∧
      (transformUpTo rules settings (names.length + remaining) firings plan).firings =
        (transformUpTo rules settings remaining (firings.recordAll names) last).firings := by
  induction steps generalizing firings with
  | none plan => simp
  | @next plan last firing names fired checked rest inductionHypothesis =>
      have count : (firing.rule :: names).length + remaining = names.length + remaining + 1 := by
        rw [List.length_cons, Nat.add_right_comm]
      rw [count, transformUpTo_of_some fired checked]
      exact inductionHypothesis (firings.record firing.rule)

/-- A run ends as it is related to end, and counts its replacements. -/
theorem Ends.transformUpTo {limit : Nat} {plan : Plan} {names : List String}
    {outcome : Except Error Plan} (ends : Ends rules settings limit plan names outcome)
    (firings : Firings) :
    (transformUpTo rules settings limit firings plan).outcome = outcome ∧
      (transformUpTo rules settings limit firings plan).firings = firings.recordAll names := by
  cases ends with
  | @finished _ last steps short quiet =>
      obtain ⟨remaining, rfl⟩ := Nat.exists_eq_add_of_le short
      obtain ⟨sameOutcome, sameFirings⟩ := steps.transformUpTo_add remaining firings
      rw [sameOutcome, sameFirings]
      cases remaining with
      | zero => exact ⟨rfl, rfl⟩
      | succ remaining =>
          have idle : (last.step rules settings).outcome = .ok none :=
            step_eq_none_iff_trials.mpr (quiet (by omega))
          simp [Lateral.transformUpTo, idle]
  | @failed _ last error steps short fails =>
      obtain ⟨remaining, rfl⟩ := Nat.exists_eq_add_of_lt short
      obtain ⟨sameOutcome, sameFirings⟩ := steps.transformUpTo_add (remaining + 1) firings
      rw [Nat.add_assoc, sameOutcome, sameFirings]
      simp [Lateral.transformUpTo, fails]
  | @rejected names last firing error steps short fired rejects =>
      obtain ⟨remaining, rfl⟩ := Nat.exists_eq_add_of_lt short
      obtain ⟨sameOutcome, sameFirings⟩ := steps.transformUpTo_add (remaining + 1) firings
      rw [Nat.add_assoc, sameOutcome, sameFirings]
      simp [Lateral.transformUpTo, fired, rejects]

/-- Each run ends in one of the ways. -/
theorem exists_ends (rules : List Rule) (settings : Settings) (limit : Nat) (plan : Plan) :
    ∃ names outcome, Ends rules settings limit plan names outcome := by
  cases ended : (transformUpTo rules settings limit .none plan).outcome with
  | ok last =>
      obtain ⟨names, steps, short, quiet⟩ := transformUpTo_eq_ok_iff.mp ended
      exact ⟨names, .ok last,
        .finished steps short fun below => step_eq_none_iff_trials.mp (quiet below)⟩
  | error error =>
      obtain ⟨names, last, steps, short, fails | ⟨firing, fired, rejects⟩⟩ :=
        transformUpTo_eq_error_iff.mp ended
      · exact ⟨names, .error error, .failed steps short fails⟩
      · exact ⟨names ++ [firing.rule], .error error, .rejected steps short fired rejects⟩

namespace Optimizer

/-- A run of the optimizer ends in a way when it is related to end so. -/
theorem outcome_optimize_iff {firings : Firings} {plan : Plan} {outcome : Except Error Plan} :
    (optimize ⟨rules, settings, firings⟩ plan).outcome = outcome ↔
      ∃ names, Ends rules settings settings.maxFirings.toNat plan names outcome := by
  constructor
  · rintro rfl
    obtain ⟨names, outcome, ends⟩ := exists_ends rules settings settings.maxFirings.toNat plan
    obtain ⟨sameOutcome, -⟩ := ends.transformUpTo firings
    exact ⟨names, sameOutcome ▸ ends⟩
  · rintro ⟨names, ends⟩
    exact (ends.transformUpTo firings).1

/-- A run leaves its counters in ascending order. -/
theorem ascending_optimize {firings : Firings} (ascending : firings.Ascending) (plan : Plan) :
    (optimize ⟨rules, settings, firings⟩ plan).firings.Ascending := by
  obtain ⟨names, outcome, ends⟩ := exists_ends rules settings settings.maxFirings.toNat plan
  have counted : (optimize ⟨rules, settings, firings⟩ plan).firings = firings.recordAll names :=
    (ends.transformUpTo firings).2
  exact counted ▸ ascending.recordAll names

/-- After any of the runs a counter has grown by the number of replacements under its name in the
runs so far, modulo the size of a counter. -/
theorem count_optimizeAll {firings : Firings} (ascending : firings.Ascending) {plans : List Plan}
    {replaced : List (List String)}
    (ends : List.Forall₂ (fun plan names => ∃ outcome,
      Ends rules settings settings.maxFirings.toNat plan names outcome) plans replaced)
    {index : Nat} {run : Run}
    (found : (optimizeAll ⟨rules, settings, firings⟩ plans)[index]? = some run) (name : String) :
    run.firings.count name =
      firings.count name + UInt32.ofNat ((replaced.take (index + 1)).flatten.count name) := by
  induction ends generalizing firings index with
  | nil => simp [optimizeAll] at found
  | @cons plan names plans replaced first rest inductionHypothesis =>
      obtain ⟨outcome, firstEnds⟩ := first
      have counted : (optimize ⟨rules, settings, firings⟩ plan).firings = firings.recordAll names :=
        (firstEnds.transformUpTo firings).2
      cases index with
      | zero =>
          obtain rfl : optimize ⟨rules, settings, firings⟩ plan = run := by
            simpa [optimizeAll] using found
          rw [counted, Firings.count_recordAll ascending]
          simp
      | succ index =>
          rw [optimizeAll, List.getElem?_cons_succ, afterRun] at found
          rw [inductionHypothesis (ascending_optimize ascending plan) found, counted,
            Firings.count_recordAll ascending]
          simp [List.take_succ_cons, UInt32.add_assoc]

/-- What an optimizer does with any rules and settings.

A step does what the first trial does that comes to something, the places being visited each before
those below it and the rules in order; a plan in a place replaces the node there, and its ancestors
are rebuilt over their inputs. A run ends well with a plan exactly when it reaches it by steps that
do not fail and whose plans pass the check, as many as are admitted, or fewer when no trial on the
plan comes to anything any more. Every run, whatever has been counted before, ends in one of the
ways of `Ends`, with a plan or with an error in place of a plan. In runs one after the other, the
counter of a name is the number of replacements made under it so far, modulo the size of a
counter. -/
theorem optimize_semantics (rules : List Rule) (settings : Settings) :
    (∀ plan : Plan,
      (plan.step rules settings).outcome = Trial.decision settings (plan.trials rules) ∧
        plan.places.map Place.node = plan.nodes ∧
          ∀ place ∈ plan.places, ∀ replacement,
            Replaces place.node replacement plan (place.context.fill replacement)) ∧
    (∀ firings plan last, (optimize ⟨rules, settings, firings⟩ plan).outcome = .ok last ↔
      ∃ names, Steps rules settings names plan last ∧
        names.length ≤ settings.maxFirings.toNat ∧
          (names.length < settings.maxFirings.toNat →
            ∀ trial ∈ last.trials rules, trial.verdict settings = .ok none)) ∧
    (∀ firings plan outcome, (optimize ⟨rules, settings, firings⟩ plan).outcome = outcome ↔
      ∃ names, Ends rules settings settings.maxFirings.toNat plan names outcome) ∧
    ∀ plans replaced, List.Forall₂ (fun plan names => ∃ outcome,
        Ends rules settings settings.maxFirings.toNat plan names outcome) plans replaced →
      ∀ (index : Nat) (run : Run), ((create rules settings).optimizeAll plans)[index]? = some run →
        ∀ name, (run.firings.count name).toNat =
          (replaced.take (index + 1)).flatten.count name % 2 ^ 32 := by
  refine ⟨fun plan => ⟨outcome_step_eq_decision rules settings plan, map_node_places plan,
    fun place member => replaces_of_mem_places member⟩, fun firings plan last => ?_,
    fun firings plan outcome => outcome_optimize_iff, fun plans replaced ends index run found name => ?_⟩
  · refine transformUpTo_eq_ok_iff.trans (exists_congr fun names => ?_)
    simp only [step_eq_none_iff_trials]
  · have counted := count_optimizeAll Firings.ascending_none ends found name
    have fresh : Firings.none.count name = 0 := rfl
    rw [counted, fresh, UInt32.zero_add, UInt32.toNat_ofNat']

/-- A rule that drops the first row of a literal relation. -/
def dropRow : Rule where
  name := "shrink"
  operator := .values
  applies _ _ := true
  transform _ node :=
    match node with
    | .values schema (_ :: rows) => ⟨[], .ok (some (.values schema rows))⟩
    | _ => ⟨[], .ok none⟩

/-- A rule of the same name that puts a relation for a scan whose row is too wide for it. -/
def misfitRow : Rule where
  name := "shrink"
  operator := .tableFunctionScan
  applies _ _ := true
  transform _ _ := ⟨[], .ok (some (.values [] [[.null]]))⟩

/-- Two rows are dropped in a first run, and a second run fails behind a replacement: three are
counted under the name that both rules have. -/
theorem optimize_semantics_shrink : ∃ run error,
    ((create [dropRow, misfitRow] .standard).optimizeAll
      [.values [] [[], []], .scan ⟨.literal .null, .null, [], []⟩ []])[1]? = some run ∧
        run.outcome = .error error ∧ (run.firings.count "shrink").toNat = 3 := by
  have drops : Steps [dropRow, misfitRow] .standard ["shrink", "shrink"] (.values [] [[], []])
      (.values [] []) := by
    have first : ((Plan.values [] [[], []]).step [dropRow, misfitRow] .standard).outcome =
        .ok (some ⟨"shrink", .values [] [[]]⟩) := rfl
    have second : ((Plan.values [] [[]]).step [dropRow, misfitRow] .standard).outcome =
        .ok (some ⟨"shrink", .values [] []⟩) := rfl
    exact .next first rfl (.next second rfl (.none _))
  have dropped : Ends [dropRow, misfitRow] .standard 1024 (.values [] [[], []])
      ["shrink", "shrink"] (.ok (.values [] [])) :=
    .finished drops (by decide) fun _ => step_eq_none_iff_trials.mp rfl
  have misfits : ((Plan.scan ⟨.literal .null, .null, [], []⟩ []).step
      [dropRow, misfitRow] .standard).outcome = .ok (some ⟨"shrink", .values [] [[.null]]⟩) := rfl
  have misfit : Ends [dropRow, misfitRow] .standard 1024 (.scan ⟨.literal .null, .null, [], []⟩ [])
      ["shrink"] (.error (.plan (Plan.values [] [[.null]]).text (.rowWidth 1 0))) :=
    .rejected (.none _) (by decide) misfits rfl
  obtain ⟨-, -, -, counts⟩ := optimize_semantics [dropRow, misfitRow] .standard
  exact ⟨_, _, rfl, rfl, counts _ _ (.cons ⟨_, dropped⟩ (.cons ⟨_, misfit⟩ .nil)) 1 _ rfl "shrink"⟩

end Optimizer

end Lateral
