import Lateral.Proofs.Optimizer.Step

/-!
# The order of trials

A trial is a rule on a place of a plan. The trials of a plan are listed in the order
of its places, each before the places below it, and at one place in the order of the
rules (`Plan.trials`). A step does what the first trial in this list does that comes
to something, and nothing when there is none (`outcome_step_eq_decision`). A plan in
a place leaves all other places as they are, with the ancestors rebuilt
(`replaces_of_mem_places`).
-/

namespace Lateral

/-- What a rule does with a node: an error, nothing, or a plan for its place. It does nothing
where it does not apply. -/
def Rule.verdict (rule : Rule) (settings : Settings) (node : Plan) :
    Except Error (Option Plan) :=
  if rule.accepts settings node then (rule.transform settings node).outcome else .ok none

/-- A node of a plan with the plan around it. -/
structure Place where
  context : Plan.Context
  node : Plan

/-- The place in a plan that stands in a hole itself. -/
def Place.within (outer : Plan.Context) (place : Place) : Place :=
  ⟨outer.comp place.context, place.node⟩

/-- A rule that is tried on a place. -/
structure Trial where
  place : Place
  rule : Rule

namespace Trial

/-- What the rule does with the node of the place. -/
def verdict (settings : Settings) (trial : Trial) : Except Error (Option Plan) :=
  trial.rule.verdict settings trial.place.node

/-- Whether the trial comes to something, an error or a plan. -/
def acts (settings : Settings) (trial : Trial) : Bool :=
  match trial.verdict settings with
  | .ok none => false
  | _ => true

/-- What the trial makes of the whole plan: the plan that the rule gives stands in the place. -/
def outcome (settings : Settings) (trial : Trial) : Except Error (Option (Firing Plan)) :=
  (trial.verdict settings).map fun found => found.map fun replacement =>
    ⟨trial.rule.name, trial.place.context.fill replacement⟩

/-- The trial in a plan that stands in a hole itself. -/
def within (outer : Plan.Context) (trial : Trial) : Trial :=
  ⟨trial.place.within outer, trial.rule⟩

/-- What the first of the trials does that comes to something. -/
def decision (settings : Settings) (trials : List Trial) : Except Error (Option (Firing Plan)) :=
  match trials.find? (acts settings) with
  | some trial => trial.outcome settings
  | none => .ok none

end Trial

namespace Plan

mutual

/-- The places of a plan, each before the places below it, and the inputs in order. -/
def places : Plan → List Place
  | .values schema rows => [⟨.hole, .values schema rows⟩]
  | .project projection input =>
    ⟨.hole, .project projection input⟩ ::
      (places input).map (Place.within (.project projection .hole))
  | .correlate correlation left right =>
    ⟨.hole, .correlate correlation left right⟩ ::
      ((places left).map (Place.within (.inLeft correlation .hole right)) ++
        (places right).map (Place.within (.inRight correlation left .hole)))
  | .scan source inputs => ⟨.hole, .scan source inputs⟩ :: placesAmong source [] inputs

/-- The places in the inputs of a scan that come behind the inputs `before`. -/
def placesAmong (source : Scan) (before : List Plan) : List Plan → List Place
  | [] => []
  | input :: rest =>
    (places input).map (Place.within (.scan source before .hole rest)) ++
      placesAmong source (before ++ [input]) rest

end

/-- The trials of rules on places: place by place, and at each place the rules in order. -/
def trialsOn (rules : List Rule) (places : List Place) : List Trial :=
  places.flatMap fun place => rules.map fun rule => ⟨place, rule⟩

/-- The trials of rules on a plan, in order. -/
def trials (rules : List Rule) (plan : Plan) : List Trial :=
  trialsOn rules plan.places

end Plan

namespace Trial

variable {settings : Settings}

theorem acts_eq_false_iff {trial : Trial} :
    trial.acts settings = false ↔ trial.verdict settings = .ok none := by
  unfold acts
  split <;> simp_all

theorem outcome_eq_none_iff {trial : Trial} :
    trial.outcome settings = .ok none ↔ trial.verdict settings = .ok none := by
  unfold outcome
  cases ended : trial.verdict settings with
  | error error => simp [Except.map]
  | ok found => cases found <;> simp [Except.map]

/-- Nothing is decided exactly when no trial comes to anything. -/
theorem decision_eq_none_iff {trials : List Trial} :
    decision settings trials = .ok none ↔ ∀ trial ∈ trials, trial.verdict settings = .ok none := by
  unfold decision
  split
  · next trial found =>
      have acting : trial.acts settings = true := List.find?_some found
      constructor
      · intro nothing
        rw [outcome_eq_none_iff, ← acts_eq_false_iff, acting] at nothing
        cases nothing
      · intro all
        have idle := acts_eq_false_iff.mpr (all trial (List.mem_of_find?_eq_some found))
        rw [acting] at idle
        cases idle
  · next missing =>
      simpa [acts_eq_false_iff] using missing

/-- The first trials decide, and the later ones where these come to nothing. -/
theorem decision_append_of_ne {front back : List Trial}
    (decided : decision settings front ≠ .ok none) :
    decision settings (front ++ back) = decision settings front := by
  unfold decision at *
  cases found : front.find? (acts settings) with
  | some trial => simp [List.find?_append, found]
  | none => simp [found] at decided

theorem decision_append_of_eq {front back : List Trial}
    (nothing : decision settings front = .ok none) :
    decision settings (front ++ back) = decision settings back := by
  have idle := decision_eq_none_iff.mp nothing
  have missing : front.find? (acts settings) = none := by
    simpa [acts_eq_false_iff] using idle
  simp [decision, List.find?_append, missing]

/-- Trials in a plan decide the same of the plan around it. -/
theorem decision_map_within (outer : Plan.Context) (trials : List Trial) :
    decision settings (trials.map (within outer)) =
      (decision settings trials).map fun found =>
        found.map fun firing => ⟨firing.rule, outer.fill firing.result⟩ := by
  have sameActs : (acts settings ∘ within outer) = acts settings := rfl
  unfold decision
  rw [List.find?_map, sameActs]
  cases trials.find? (acts settings) with
  | none => rfl
  | some trial =>
      have sameVerdict : (trial.within outer).verdict settings = trial.verdict settings := rfl
      simp only [Option.map_some, outcome, sameVerdict]
      cases trial.verdict settings with
      | error error => rfl
      | ok found => cases found <;> simp [Except.map, within, Place.within]

end Trial

namespace Search

variable {α β γ : Type}

/-- Where the first search decides as the first trials do, and the second one as the later ones,
the search that goes on decides as all of them. -/
theorem outcome_orElse_eq_decision {settings : Settings} {first : Search Plan}
    {second : Unit → Search Plan} {front back : List Trial}
    (ofFirst : first.outcome = Trial.decision settings front)
    (ofSecond : (second ()).outcome = Trial.decision settings back) :
    (first.orElse second).outcome = Trial.decision settings (front ++ back) := by
  by_cases nothing : first.outcome = .ok none
  · rw [outcome_orElse_of_eq nothing, Trial.decision_append_of_eq (ofFirst ▸ nothing), ofSecond]
  · rw [outcome_orElse_of_ne nothing, Trial.decision_append_of_ne (ofFirst ▸ nothing), ofFirst]

/-- What is put into its surroundings twice is put into both at once. -/
theorem within_within (inner : α → β) (outer : β → γ) (search : Search α) :
    (search.within inner).within outer = search.within (outer ∘ inner) := by
  obtain ⟨log, outcome⟩ := search
  cases outcome with
  | error error => rfl
  | ok found => cases found <;> rfl

/-- A search that goes on is put into its surroundings part by part. -/
theorem outcome_within_orElse (surround : α → β) (first : Search α) (second : Unit → Search α) :
    ((first.orElse second).within surround).outcome =
      ((first.within surround).orElse fun _ => (second ()).within surround).outcome := by
  obtain ⟨log, outcome⟩ := first
  cases outcome with
  | error error => rfl
  | ok found => cases found <;> rfl

end Search

namespace Plan

variable {rules : List Rule} {settings : Settings}

theorem trialsOn_append (front back : List Place) :
    trialsOn rules (front ++ back) = trialsOn rules front ++ trialsOn rules back :=
  List.flatMap_append

/-- The trials at the root come first. -/
theorem trialsOn_cons (place : Place) (places : List Place) :
    trialsOn rules (place :: places) = trialsOn rules [place] ++ trialsOn rules places :=
  trialsOn_append [place] places

/-- The trials at one place are the rules in order. -/
theorem trialsOn_singleton (place : Place) :
    trialsOn rules [place] = rules.map fun rule => ⟨place, rule⟩ :=
  List.flatMap_singleton ..

/-- The trials on places in a plan that stands in a hole. -/
theorem trialsOn_map_within (outer : Context) (places : List Place) :
    trialsOn rules (places.map (Place.within outer)) =
      (trialsOn rules places).map (Trial.within outer) := by
  simp only [trialsOn, List.flatMap_map, List.map_flatMap, List.map_map]
  rfl

/-- Trying a rule on a node comes to its verdict. -/
theorem outcome_tryOn (rule : Rule) (node : Plan) :
    (rule.tryOn settings node).outcome = Trial.outcome settings ⟨⟨.hole, node⟩, rule⟩ := by
  unfold Rule.tryOn Trial.outcome Trial.verdict Rule.verdict
  split
  · simp only
    split <;> next ended => simp [ended, Except.map, Context.fill]
  · rfl

/-- Trying rules on a node is decided by the trials at the root. -/
theorem outcome_tryRules (node : Plan) (rules : List Rule) :
    (tryRules settings node rules).outcome =
      Trial.decision settings (trialsOn rules [⟨.hole, node⟩]) := by
  induction rules with
  | nil => rfl
  | cons rule rest inductionHypothesis =>
      have first : (rule.tryOn settings node).outcome =
          Trial.decision settings [⟨⟨.hole, node⟩, rule⟩] := by
        rw [outcome_tryOn]
        cases acting : Trial.acts settings ⟨⟨.hole, node⟩, rule⟩ with
        | true => simp [Trial.decision, acting]
        | false =>
            rw [Trial.outcome_eq_none_iff.mpr (Trial.acts_eq_false_iff.mp acting)]
            simp [Trial.decision, acting]
      rw [trialsOn_singleton] at inductionHypothesis ⊢
      exact Search.outcome_orElse_eq_decision first inductionHypothesis

/-- A search in an input decides in the plan around it as the trials on the places there. -/
theorem outcome_within_eq_decision {search : Search Plan} {places : List Place} (outer : Context)
    (decides : search.outcome = Trial.decision settings (trialsOn rules places)) :
    (search.within outer.fill).outcome =
      Trial.decision settings (trialsOn rules (places.map (Place.within outer))) := by
  rw [trialsOn_map_within, Trial.decision_map_within, ← decides]
  rfl

mutual

/-- A step does what the first trial does that comes to something. -/
theorem outcome_step_eq_decision (rules : List Rule) (settings : Settings) : (plan : Plan) →
    (plan.step rules settings).outcome = Trial.decision settings (plan.trials rules)
  | .values schema rows => outcome_tryRules (.values schema rows) rules
  | .project projection input => by
      have inInput := outcome_within_eq_decision (.project projection .hole)
        (outcome_step_eq_decision rules settings input)
      rw [step, trials, places, trialsOn_cons]
      exact Search.outcome_orElse_eq_decision (outcome_tryRules _ rules) inInput
  | .correlate correlation left right => by
      have inLeft := outcome_within_eq_decision (.inLeft correlation .hole right)
        (outcome_step_eq_decision rules settings left)
      have inRight := outcome_within_eq_decision (.inRight correlation left .hole)
        (outcome_step_eq_decision rules settings right)
      rw [step, trials, places, trialsOn_cons, trialsOn_append]
      exact Search.outcome_orElse_eq_decision (outcome_tryRules _ rules)
        (Search.outcome_orElse_eq_decision inLeft inRight)
  | .scan source inputs => by
      rw [step, trials, places, trialsOn_cons]
      exact Search.outcome_orElse_eq_decision (outcome_tryRules _ rules)
        (outcome_stepAll_eq_decision rules settings source [] inputs)

/-- The same for the inputs of a scan that come behind others. -/
theorem outcome_stepAll_eq_decision (rules : List Rule) (settings : Settings) (source : Scan)
    (before : List Plan) : (inputs : List Plan) →
    ((stepAll rules settings inputs).within fun others => .scan source (before ++ others)).outcome =
      Trial.decision settings (trialsOn rules (placesAmong source before inputs))
  | [] => rfl
  | input :: rest => by
      have inInput := outcome_within_eq_decision (.scan source before .hole rest)
        (outcome_step_eq_decision rules settings input)
      have inRest := outcome_stepAll_eq_decision rules settings source (before ++ [input]) rest
      have shift : (fun others => Plan.scan source (before ++ others)) ∘ (fun others => input :: others) =
          fun others => .scan source (before ++ [input] ++ others) := by
        funext others
        simp
      rw [stepAll, Search.outcome_within_orElse, placesAmong, trialsOn_append]
      refine Search.outcome_orElse_eq_decision ?_ ?_
      · rw [Search.within_within]
        exact inInput
      · rw [Search.within_within, shift]
        exact inRest

end

mutual

/-- The nodes of the places are the nodes of the plan, in the same order. -/
theorem map_node_places : (plan : Plan) → plan.places.map Place.node = plan.nodes
  | .values schema rows => rfl
  | .project projection input => by
      have inInput := map_node_places input
      simp only [places, nodes, List.map_cons, List.map_map, ← inInput]
      rfl
  | .correlate correlation left right => by
      have inLeft := map_node_places left
      have inRight := map_node_places right
      simp only [places, nodes, List.map_cons, List.map_append, List.map_map, ← inLeft, ← inRight]
      rfl
  | .scan source inputs => by
      simp [places, nodes, map_node_placesAmong source [] inputs]

theorem map_node_placesAmong (source : Scan) (before : List Plan) : (inputs : List Plan) →
    (placesAmong source before inputs).map Place.node = nodesAll inputs
  | [] => rfl
  | input :: rest => by
      have inInput := map_node_places input
      have inRest := map_node_placesAmong source (before ++ [input]) rest
      simp only [placesAmong, nodesAll, List.map_append, List.map_map, inRest, ← inInput]
      rfl

end

mutual

/-- The plan is what the node of a place makes in the context of the place. -/
theorem fill_of_mem_places : (plan : Plan) →
    ∀ place ∈ plan.places, place.context.fill place.node = plan
  | .values schema rows => by simp [places, Context.fill]
  | .project projection input => by
      have inInput := fill_of_mem_places input
      simp only [places, List.forall_mem_cons, List.forall_mem_map]
      refine ⟨rfl, fun place member => ?_⟩
      simp [Place.within, Context.fill, inInput place member]
  | .correlate correlation left right => by
      have inLeft := fill_of_mem_places left
      have inRight := fill_of_mem_places right
      simp only [places, List.forall_mem_cons, List.forall_mem_append, List.forall_mem_map]
      refine ⟨rfl, fun place member => ?_, fun place member => ?_⟩
      · simp [Place.within, Context.fill, inLeft place member]
      · simp [Place.within, Context.fill, inRight place member]
  | .scan source inputs => by
      have inInputs := fill_of_mem_placesAmong source [] inputs
      simp only [places, List.forall_mem_cons]
      exact ⟨rfl, inInputs⟩

theorem fill_of_mem_placesAmong (source : Scan) (before : List Plan) : (inputs : List Plan) →
    ∀ place ∈ placesAmong source before inputs,
      place.context.fill place.node = .scan source (before ++ inputs)
  | [] => by simp [placesAmong]
  | input :: rest => by
      have inInput := fill_of_mem_places input
      have inRest := fill_of_mem_placesAmong source (before ++ [input]) rest
      simp only [placesAmong, List.forall_mem_append, List.forall_mem_map]
      refine ⟨fun place member => ?_, fun place member => ?_⟩
      · simp [Place.within, Context.fill, inInput place member]
      · simp [inRest place member]

end

/-- A plan in a place replaces the node there, the ancestors being rebuilt over their inputs. -/
theorem replaces_of_mem_places {plan : Plan} {place : Place} (member : place ∈ plan.places)
    (replacement : Plan) :
    Replaces place.node replacement plan (place.context.fill replacement) :=
  replaces_iff_exists_context.mpr
    ⟨place.context, (fill_of_mem_places plan place member).symm, rfl⟩

/-- A step finds nothing to do exactly when no trial on the plan comes to anything. -/
theorem step_eq_none_iff_trials {plan : Plan} :
    (plan.step rules settings).outcome = .ok none ↔
      ∀ trial ∈ plan.trials rules, trial.verdict settings = .ok none := by
  rw [outcome_step_eq_decision, Trial.decision_eq_none_iff]

end Plan

end Lateral
