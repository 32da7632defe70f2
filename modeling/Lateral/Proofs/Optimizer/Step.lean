import Lateral.Optimizer.Step
import Lateral.Proofs.Plan.Context

/-!
# What a step does

A search ends in one of three ways, and `Search.Tells` collects what is known after
each of them. `step_tells` says it of a step: either no rule comes to anything on
any node, or the first node on which one does decides the step, with a failure or
with a plan that takes the place of the node. `outcome_step_fill` is the way back for
a plan. Settings matter to a step only as far as they matter to the rules
(`step_congr`).
-/

namespace Lateral

/-- What is known of a search after each way in which it can end. -/
structure Search.Tells {α : Type} (search : Search α) (idle : Prop) (fires : Firing α → Prop)
    (fails : Error → Prop) : Prop where
  ofNone : search.outcome = .ok none → idle
  ofSome : ∀ firing, search.outcome = .ok (some firing) → fires firing
  ofError : ∀ error, search.outcome = .error error → fails error

namespace Search

variable {α β : Type} {first : Search α} {second : Unit → Search α}

/-- A search that found something to do is not gone on with. -/
theorem outcome_orElse_of_ne (found : first.outcome ≠ .ok none) :
    (first.orElse second).outcome = first.outcome := by
  unfold orElse
  split
  · next nothing => exact absurd nothing found
  · rfl

/-- Behind a search that found nothing to do the second one decides. -/
theorem outcome_orElse_of_eq (nothing : first.outcome = .ok none) :
    (first.orElse second).outcome = (second ()).outcome := by
  simp [orElse, nothing]

/-- Nothing found in the inside is nothing found around it. -/
theorem outcome_within_of_none {search : Search α} (surround : α → β)
    (nothing : search.outcome = .ok none) : (search.within surround).outcome = .ok none := by
  simp [within, nothing, Except.map]

/-- A firing in the inside is a firing around it. -/
theorem outcome_within_of_some {search : Search α} (surround : α → β) {name : String}
    {result : α} (fired : search.outcome = .ok (some ⟨name, result⟩)) :
    (search.within surround).outcome = .ok (some ⟨name, surround result⟩) := by
  simp [within, fired, Except.map]

namespace Tells

variable {search : Search α} {idle secondIdle : Prop} {fires : Firing α → Prop}
  {fails : Error → Prop}

/-- The search that found nothing to do. -/
theorem ofIdle (nothing : idle) : (Search.idle : Search α).Tells idle fires fails where
  ofNone _ := nothing
  ofSome _ found := by cases found
  ofError _ failed := by cases failed

/-- What a search tells may be weakened. -/
theorem imp (tells : search.Tells idle fires fails) {otherIdle : Prop}
    {otherFires : Firing α → Prop} {otherFails : Error → Prop} (ofIdle : idle → otherIdle)
    (ofFires : ∀ firing, fires firing → otherFires firing)
    (ofFails : ∀ error, fails error → otherFails error) :
    search.Tells otherIdle otherFires otherFails where
  ofNone nothing := ofIdle (tells.ofNone nothing)
  ofSome firing found := ofFires firing (tells.ofSome firing found)
  ofError error failed := ofFails error (tells.ofError error failed)

/-- Where both searches tell the same of a firing and of a failure, so does the one that goes on
with the second. -/
theorem orElse (ofFirst : first.Tells idle fires fails)
    (ofSecond : idle → (second ()).Tells secondIdle fires fails) :
    (first.orElse second).Tells secondIdle fires fails := by
  by_cases nothing : first.outcome = .ok none
  · have tells := ofSecond (ofFirst.ofNone nothing)
    have decides : (first.orElse second).outcome = (second ()).outcome :=
      outcome_orElse_of_eq nothing
    exact ⟨fun none => tells.ofNone (decides ▸ none),
      fun firing found => tells.ofSome firing (decides ▸ found),
      fun error failed => tells.ofError error (decides ▸ failed)⟩
  · have decides : (first.orElse second).outcome = first.outcome := outcome_orElse_of_ne nothing
    exact ⟨fun none => absurd (decides ▸ none) nothing,
      fun firing found => ofFirst.ofSome firing (decides ▸ found),
      fun error failed => ofFirst.ofError error (decides ▸ failed)⟩

/-- A firing is put into its surroundings. -/
theorem within (tells : search.Tells idle fires fails) {surround : α → β} {otherIdle : Prop}
    {outerFires : Firing β → Prop} {outerFails : Error → Prop} (ofIdle : idle → otherIdle)
    (ofFires : ∀ firing, fires firing → outerFires ⟨firing.rule, surround firing.result⟩)
    (ofFails : ∀ error, fails error → outerFails error) :
    (search.within surround).Tells otherIdle outerFires outerFails := by
  cases ended : search.outcome with
  | error error =>
      refine ⟨?_, ?_, fun other failed => ?_⟩
      · simp [Search.within, ended, Except.map]
      · simp [Search.within, ended, Except.map]
      · obtain rfl : error = other := by simpa [Search.within, ended, Except.map] using failed
        exact ofFails error (tells.ofError error ended)
  | ok found =>
      cases found with
      | none =>
          refine ⟨fun _ => ofIdle (tells.ofNone ended), ?_, ?_⟩
          · simp [Search.within, ended, Except.map]
          · simp [Search.within, ended, Except.map]
      | some firing =>
          refine ⟨?_, fun other fired => ?_, ?_⟩
          · simp [Search.within, ended, Except.map]
          · obtain rfl : ⟨firing.rule, surround firing.result⟩ = other := by
              simpa [Search.within, ended, Except.map] using fired
            exact ofFires firing (tells.ofSome firing ended)
          · simp [Search.within, ended, Except.map]

end Tells

end Search

variable {rules : List Rule} {settings : Settings}

/-- What trying a rule on a node comes to. -/
theorem Rule.tryOn_tells (rule : Rule) (settings : Settings) (node : Plan) :
    (rule.tryOn settings node).Tells
      (rule.accepts settings node = true → (rule.transform settings node).outcome = .ok none)
      (fun firing => rule.accepts settings node = true ∧
        (rule.transform settings node).outcome = .ok (some firing.result) ∧
          firing.rule = rule.name)
      (fun error => rule.accepts settings node = true ∧
        (rule.transform settings node).outcome = .error error) := by
  unfold tryOn
  split
  · next accepted =>
      simp only
      split
      · next error failed => exact ⟨by simp, by simp, by simp [accepted, failed]⟩
      · next passed => exact ⟨by simp [passed], by simp, by simp⟩
      · next replacement transformed =>
          refine ⟨by simp, fun firing fired => ?_, by simp⟩
          obtain rfl : ⟨rule.name, replacement⟩ = firing := by simpa using fired
          exact ⟨accepted, transformed, rfl⟩
  · next notAccepted => exact Search.Tells.ofIdle fun accepted => absurd accepted notAccepted

/-- What trying rules on a node comes to is what trying one of them comes to. -/
theorem tryRules_tells (settings : Settings) (node : Plan) (rules : List Rule) :
    (tryRules settings node rules).Tells
      (∀ rule ∈ rules, rule.accepts settings node = true →
        (rule.transform settings node).outcome = .ok none)
      (fun firing => ∃ rule ∈ rules, rule.accepts settings node = true ∧
        (rule.transform settings node).outcome = .ok (some firing.result) ∧
          firing.rule = rule.name)
      (fun error => ∃ rule ∈ rules, rule.accepts settings node = true ∧
        (rule.transform settings node).outcome = .error error) := by
  induction rules with
  | nil => exact Search.Tells.ofIdle (by simp)
  | cons rule rest inductionHypothesis =>
      refine ((rule.tryOn_tells settings node).imp id ?_ ?_).orElse fun passed => ?_
      · exact fun firing fired => ⟨rule, List.mem_cons_self, fired⟩
      · exact fun error failed => ⟨rule, List.mem_cons_self, failed⟩
      · refine inductionHypothesis.imp ?_ ?_ ?_
        · exact fun restPassed => List.forall_mem_cons.mpr ⟨passed, restPassed⟩
        · exact fun firing ⟨other, member, fired⟩ => ⟨other, List.mem_cons_of_mem rule member, fired⟩
        · exact fun error ⟨other, member, failed⟩ => ⟨other, List.mem_cons_of_mem rule member, failed⟩

namespace Plan

/-- No rule comes to anything on any of the nodes. -/
def Passed (rules : List Rule) (settings : Settings) (nodes : List Plan) : Prop :=
  ∀ node ∈ nodes, (tryRules settings node rules).outcome = .ok none

/-- The first node on which a rule comes to something is the one in a place of the plan, and it
comes to an outcome there. -/
structure Decides (rules : List Rule) (settings : Settings) (plan : Plan) (context : Context)
    (node : Plan) (outcome : Except Error (Option (Firing Plan))) : Prop where
  inPlace : plan = context.fill node
  first : Passed rules settings (context.before node)
  ends : (tryRules settings node rules).outcome = outcome

/-- Some node decides that a rule fires, and the plan takes its place. -/
def Fires (rules : List Rule) (settings : Settings) (plan : Plan) (firing : Firing Plan) : Prop :=
  ∃ context node replacement,
    Decides rules settings plan context node (.ok (some ⟨firing.rule, replacement⟩)) ∧
      firing.result = context.fill replacement

/-- Some node decides that a rule fails. -/
def Fails (rules : List Rule) (settings : Settings) (plan : Plan) (error : Error) : Prop :=
  ∃ context node, Decides rules settings plan context node (.error error)

/-- In one of the plans of a list a rule fires, the nodes of those before it having passed. -/
def FiresAmong (rules : List Rule) (settings : Settings) (plans : List Plan)
    (firing : Firing (List Plan)) : Prop :=
  ∃ before input newInput after, plans = before ++ input :: after ∧
    Passed rules settings (before.flatMap nodes) ∧
      Fires rules settings input ⟨firing.rule, newInput⟩ ∧
        firing.result = before ++ newInput :: after

/-- In one of the plans of a list a rule fails, the nodes of those before it having passed. -/
def FailsAmong (rules : List Rule) (settings : Settings) (plans : List Plan)
    (error : Error) : Prop :=
  ∃ before input after, plans = before ++ input :: after ∧
    Passed rules settings (before.flatMap nodes) ∧ Fails rules settings input error

/-- The root is the first node to decide. -/
theorem tryRules_tells_root (plan : Plan) :
    (tryRules settings plan rules).Tells (Passed rules settings [plan])
      (Fires rules settings plan) (Fails rules settings plan) where
  ofNone nothing := by simpa [Passed] using nothing
  ofSome firing fired :=
    ⟨.hole, plan, firing.result, ⟨rfl, by simp [Passed, Context.before], fired⟩, rfl⟩
  ofError _ failed := ⟨.hole, plan, rfl, by simp [Passed, Context.before], failed⟩

theorem passed_append {front back : List Plan} :
    Passed rules settings (front ++ back) ↔
      Passed rules settings front ∧ Passed rules settings back := by
  simp [Passed, or_imp, forall_and]

/-- What decides an input decides the plan around it, when all nodes before the input have
passed. -/
theorem Decides.within {input node : Plan} {inner : Context}
    {outcome : Except Error (Option (Firing Plan))}
    (decides : Decides rules settings input inner node outcome) (outer : Context)
    (passed : Passed rules settings (outer.before input)) :
    Decides rules settings (outer.fill input) (outer.comp inner) node outcome where
  inPlace := by rw [Context.fill_comp, ← decides.inPlace]
  first := by
    rw [Context.before_comp, ← decides.inPlace]
    exact passed_append.mpr ⟨passed, decides.first⟩
  ends := decides.ends

theorem Fires.within {input : Plan} {firing : Firing Plan}
    (fires : Fires rules settings input firing) (outer : Context)
    (passed : Passed rules settings (outer.before input)) :
    Fires rules settings (outer.fill input) ⟨firing.rule, outer.fill firing.result⟩ := by
  obtain ⟨inner, node, replacement, decides, isResult⟩ := fires
  exact ⟨outer.comp inner, node, replacement, decides.within outer passed, by simp [isResult]⟩

theorem Fails.within {input : Plan} {error : Error} (fails : Fails rules settings input error)
    (outer : Context) (passed : Passed rules settings (outer.before input)) :
    Fails rules settings (outer.fill input) error := by
  obtain ⟨inner, node, decides⟩ := fails
  exact ⟨outer.comp inner, node, decides.within outer passed⟩

/-- A search in an input tells of the plan around it, when all nodes before the input have
passed. -/
theorem within_tells {input : Plan} {search : Search Plan} {idle : Prop}
    (tells : search.Tells idle (Fires rules settings input) (Fails rules settings input))
    (outer : Context) (passed : Passed rules settings (outer.before input)) :
    (search.within outer.fill).Tells idle (Fires rules settings (outer.fill input))
      (Fails rules settings (outer.fill input)) :=
  tells.within id (fun _ fires => fires.within outer passed)
    (fun _ fails => fails.within outer passed)

mutual

/-- A step finds nothing to do on any node, or the first node that decides decides it. -/
theorem step_tells (rules : List Rule) (settings : Settings) : (plan : Plan) →
    (plan.step rules settings).Tells (Passed rules settings plan.nodes)
      (Fires rules settings plan) (Fails rules settings plan)
  | .values schema rows => tryRules_tells_root (.values schema rows)
  | .project projection input => by
      refine (tryRules_tells_root (.project projection input)).orElse fun rootPassed => ?_
      have inInput := within_tells (step_tells rules settings input) (.project projection .hole)
        rootPassed
      exact inInput.imp (fun passed => passed_append.mpr ⟨rootPassed, passed⟩)
        (fun _ => id) (fun _ => id)
  | .correlate correlation left right => by
      refine (tryRules_tells_root (.correlate correlation left right)).orElse fun rootPassed => ?_
      have inLeft := within_tells (step_tells rules settings left)
        (.inLeft correlation .hole right) rootPassed
      refine inLeft.orElse fun leftPassed => ?_
      have bothPassed := passed_append.mpr ⟨rootPassed, leftPassed⟩
      have inRight := within_tells (step_tells rules settings right)
        (.inRight correlation left .hole) (by
          simpa [Context.before, Context.fill] using bothPassed)
      exact inRight.imp (fun passed => by
          simpa [nodes] using passed_append.mpr ⟨bothPassed, passed⟩)
        (fun _ => id) (fun _ => id)
  | .scan source inputs => by
      refine (tryRules_tells_root (.scan source inputs)).orElse fun rootPassed => ?_
      refine (stepAll_tells rules settings inputs).within ?_ ?_ ?_
      · intro passed
        simpa [nodes, nodesAll_eq_flatMap] using passed_append.mpr ⟨rootPassed, passed⟩
      · rintro firing ⟨before, input, newInput, after, rfl, passed, fires, isResult⟩
        have inInput := fires.within (.scan source before .hole after) (by
          simpa [Context.before, Context.fill] using passed_append.mpr ⟨rootPassed, passed⟩)
        simpa [Context.fill, isResult] using inInput
      · rintro error ⟨before, input, after, rfl, passed, fails⟩
        have inInput := fails.within (.scan source before .hole after) (by
          simpa [Context.before, Context.fill] using passed_append.mpr ⟨rootPassed, passed⟩)
        simpa [Context.fill] using inInput

/-- The same for a list of plans. -/
theorem stepAll_tells (rules : List Rule) (settings : Settings) : (plans : List Plan) →
    (stepAll rules settings plans).Tells (Passed rules settings (plans.flatMap nodes))
      (FiresAmong rules settings plans) (FailsAmong rules settings plans)
  | [] => .ofIdle (by simp [Passed])
  | plan :: rest => by
      have nonePassed : Passed rules settings (List.flatMap nodes []) := by simp [Passed]
      refine Search.Tells.orElse ((step_tells rules settings plan).within id ?_ ?_)
        fun passed => (stepAll_tells rules settings rest).within ?_ ?_ ?_
      · intro firing fires
        exact ⟨[], plan, firing.result, rest, rfl, nonePassed, fires, rfl⟩
      · intro error fails
        exact ⟨[], plan, rest, rfl, nonePassed, fails⟩
      · intro restPassed
        simpa using passed_append.mpr ⟨passed, restPassed⟩
      · rintro firing ⟨before, input, newInput, after, rfl, beforePassed, fires, isResult⟩
        have allPassed := passed_append.mpr ⟨passed, beforePassed⟩
        exact ⟨plan :: before, input, newInput, after, rfl, by simpa using allPassed, fires,
          by simp [isResult]⟩
      · rintro error ⟨before, input, after, rfl, beforePassed, fails⟩
        have allPassed := passed_append.mpr ⟨passed, beforePassed⟩
        exact ⟨plan :: before, input, after, rfl, by simpa using allPassed, fails⟩

end

/-- A step finds nothing to do exactly when no rule comes to anything on any node. -/
theorem step_eq_none_iff {rules : List Rule} {settings : Settings} {plan : Plan} :
    (plan.step rules settings).outcome = .ok none ↔ Passed rules settings plan.nodes := by
  have tells := step_tells rules settings plan
  refine ⟨tells.ofNone, fun passed => ?_⟩
  cases ended : (plan.step rules settings).outcome with
  | error error =>
      obtain ⟨context, node, decides⟩ := tells.ofError error ended
      have atNode := passed node (decides.inPlace ▸ context.mem_nodes_fill node)
      simp [decides.ends] at atNode
  | ok found =>
      cases found with
      | none => rfl
      | some firing =>
          obtain ⟨context, node, replacement, decides, -⟩ := tells.ofSome firing ended
          have atNode := passed node (decides.inPlace ▸ context.mem_nodes_fill node)
          simp [decides.ends] at atNode

section Decided

variable {node replacement : Plan} {name : String}

/-- The root decides a step when a rule comes to something on it. -/
theorem outcome_step_of_root {plan : Plan}
    (decides : (tryRules settings plan rules).outcome ≠ .ok none) :
    (plan.step rules settings).outcome = (tryRules settings plan rules).outcome := by
  cases plan with
  | values schema rows => rfl
  | project projection input => exact Search.outcome_orElse_of_ne decides
  | correlate correlation left right => exact Search.outcome_orElse_of_ne decides
  | scan source inputs => exact Search.outcome_orElse_of_ne decides

/-- A firing in one of the plans of a list that come behind plans without anything to do. -/
theorem outcome_stepAll_of_some {input newInput : Plan} {before : List Plan} (after : List Plan)
    (passed : Passed rules settings (before.flatMap nodes))
    (fired : (input.step rules settings).outcome = .ok (some ⟨name, newInput⟩)) :
    (stepAll rules settings (before ++ input :: after)).outcome =
      .ok (some ⟨name, before ++ newInput :: after⟩) := by
  induction before with
  | nil =>
      have inFirst := Search.outcome_within_of_some (fun plan => plan :: after) fired
      rw [List.nil_append, stepAll, Search.outcome_orElse_of_ne (by simp [inFirst]), inFirst]
      rfl
  | cons plan rest inductionHypothesis =>
      obtain ⟨planPassed, restPassed⟩ := passed_append.mp passed
      have planIdle := Search.outcome_within_of_none (fun plan => plan :: (rest ++ input :: after))
        (step_eq_none_iff.mpr planPassed)
      rw [List.cons_append, stepAll, Search.outcome_orElse_of_eq planIdle]
      exact Search.outcome_within_of_some (fun others => plan :: others)
        (inductionHypothesis restPassed)

/-- Where no rule comes to anything before a place and one fires in the place, the step puts the
plan there. -/
theorem outcome_step_fill {context : Context}
    (passed : Passed rules settings (context.before node))
    (fires : (tryRules settings node rules).outcome = .ok (some ⟨name, replacement⟩)) :
    ((context.fill node).step rules settings).outcome =
      .ok (some ⟨name, context.fill replacement⟩) := by
  induction context with
  | hole =>
      have decides : (tryRules settings node rules).outcome ≠ .ok none := by simp [fires]
      exact (outcome_step_of_root decides).trans fires
  | project projection inner inductionHypothesis =>
      have rootPassed := passed _ List.mem_cons_self
      have inInput := inductionHypothesis fun other member =>
        passed other (List.mem_cons_of_mem _ member)
      rw [Context.fill, step, Search.outcome_orElse_of_eq rootPassed]
      exact Search.outcome_within_of_some _ inInput
  | inLeft correlation inner right inductionHypothesis =>
      have rootPassed := passed _ List.mem_cons_self
      have inLeft := inductionHypothesis fun other member =>
        passed other (List.mem_cons_of_mem _ member)
      have around := Search.outcome_within_of_some
        (fun left => Plan.correlate correlation left right) inLeft
      rw [Context.fill, step, Search.outcome_orElse_of_eq rootPassed,
        Search.outcome_orElse_of_ne (by simp [around])]
      exact around
  | inRight correlation left inner inductionHypothesis =>
      have rootPassed := passed _ List.mem_cons_self
      obtain ⟨leftPassed, innerPassed⟩ := passed_append.mp fun other member =>
        passed other (List.mem_cons_of_mem _ member)
      have leftIdle := Search.outcome_within_of_none
        (fun left => Plan.correlate correlation left (inner.fill node))
        (step_eq_none_iff.mpr leftPassed)
      rw [Context.fill, step, Search.outcome_orElse_of_eq rootPassed,
        Search.outcome_orElse_of_eq leftIdle]
      exact Search.outcome_within_of_some _ (inductionHypothesis innerPassed)
  | scan source before inner after inductionHypothesis =>
      have rootPassed := passed _ List.mem_cons_self
      obtain ⟨beforePassed, innerPassed⟩ := passed_append.mp fun other member =>
        passed other (List.mem_cons_of_mem _ member)
      rw [Context.fill, step, Search.outcome_orElse_of_eq rootPassed]
      exact Search.outcome_within_of_some _
        (outcome_stepAll_of_some after beforePassed (inductionHypothesis innerPassed))

end Decided

mutual

/-- Settings matter to a step only as far as they matter to trying the rules. -/
theorem step_congr {rules : List Rule} {settings other : Settings}
    (same : ∀ node, tryRules settings node rules = tryRules other node rules) :
    (plan : Plan) → plan.step rules settings = plan.step rules other
  | .values schema rows => same (.values schema rows)
  | .project projection input => by
      simp only [step, same, step_congr same input]
  | .correlate correlation left right => by
      simp only [step, same, step_congr same left, step_congr same right]
  | .scan source inputs => by
      simp only [step, same, stepAll_congr same inputs]

theorem stepAll_congr {rules : List Rule} {settings other : Settings}
    (same : ∀ node, tryRules settings node rules = tryRules other node rules) :
    (plans : List Plan) → stepAll rules settings plans = stepAll rules other plans
  | [] => rfl
  | plan :: rest => by
      simp only [stepAll, step_congr same plan, stepAll_congr same rest]

end

end Plan

end Lateral
