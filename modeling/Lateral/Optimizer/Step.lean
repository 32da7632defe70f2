import Lateral.Optimizer.Rule

/-!
# One step of the optimizer

A step visits the nodes of a plan, each before its inputs, and at each node tries
the rules in order. It ends with the first rule that fails or gives a plan; that
plan takes the place of the node, and everything else in the plan stays.
-/

namespace Lateral

/-- A rule that gave a result, by name, with the result. -/
structure Firing (α : Type) where
  rule : String
  result : α

/-- What came of a search for a rule to fire: an error, nothing, or a firing. -/
structure Search (α : Type) where
  log : List LogEntry
  outcome : Except Error (Option (Firing α))

namespace Search

/-- The search that found nothing to do. -/
def idle {α : Type} : Search α :=
  ⟨[], .ok none⟩

/-- Puts the result of a firing into its surroundings. -/
def within {α β : Type} (surround : α → β) (search : Search α) : Search β where
  log := search.log
  outcome := search.outcome.map fun found =>
    found.map fun firing => ⟨firing.rule, surround firing.result⟩

/-- Goes on with a second search when the first found nothing to do. -/
def orElse {α : Type} (first : Search α) (second : Unit → Search α) : Search α :=
  match first.outcome with
  | .ok none => ⟨first.log ++ (second ()).log, (second ()).outcome⟩
  | _ => first

end Search

/-- The entry for a rule that failed on a node. -/
def failureEntry (rule : Rule) (node : Plan) (error : Error) : LogEntry where
  level := .error
  message := rule.name ++ " failed on " ++ node.text ++ ": " ++ error.message

/-- The entry for a rule that fired on a node. -/
def firingEntry (rule : Rule) (node : Plan) : LogEntry where
  level := .info
  message := rule.name ++ " fired on " ++ node.text

/-- Tries one rule on a node. -/
def Rule.tryOn (rule : Rule) (settings : Settings) (node : Plan) : Search Plan :=
  if rule.accepts settings node then
    let attempt := rule.transform settings node
    match attempt.outcome with
    | .error error => ⟨attempt.log ++ [failureEntry rule node error], .error error⟩
    | .ok none => ⟨attempt.log, .ok none⟩
    | .ok (some plan) =>
      ⟨attempt.log ++ [firingEntry rule node], .ok (some ⟨rule.name, plan⟩)⟩
  else
    .idle

/-- Tries rules on a node, in order. -/
def tryRules (settings : Settings) (node : Plan) : List Rule → Search Plan
  | [] => .idle
  | rule :: rest => (rule.tryOn settings node).orElse fun _ => tryRules settings node rest

namespace Plan

mutual

/-- The first rule that fires in a plan or fails there, with the plan after the firing. -/
def step (rules : List Rule) (settings : Settings) : Plan → Search Plan
  | .values schema rows => tryRules settings (.values schema rows) rules
  | .project projection input =>
    (tryRules settings (.project projection input) rules).orElse fun _ =>
      (step rules settings input).within fun input => .project projection input
  | .correlate correlation left right =>
    (tryRules settings (.correlate correlation left right) rules).orElse fun _ =>
      ((step rules settings left).within fun left => .correlate correlation left right).orElse
        fun _ => (step rules settings right).within fun right => .correlate correlation left right
  | .scan source inputs =>
    (tryRules settings (.scan source inputs) rules).orElse fun _ =>
      (stepAll rules settings inputs).within fun inputs => .scan source inputs

/-- The first rule that fires in one of the plans of a list or fails there, with the list after
the firing. -/
def stepAll (rules : List Rule) (settings : Settings) : List Plan → Search (List Plan)
  | [] => .idle
  | plan :: rest =>
    ((step rules settings plan).within fun plan => plan :: rest).orElse fun _ =>
      (stepAll rules settings rest).within fun rest => plan :: rest

end

end Plan

end Lateral
