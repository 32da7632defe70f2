import Lateral.Optimizer.Step
import Lateral.Plan.Validate

/-!
# The optimizer

Makes steps, each from the root of the plan that the last one left, until no rule
fires any more or the most firings of a run are reached. Firings are counted by
rule name over all runs of one optimizer, a firing whose plan turns out to be
invalid included.
-/

namespace Lateral

/-- How often rules fired, by name in ascending order. The counters have 32 bits. -/
structure Firings where
  counts : List (String × UInt32)
  deriving DecidableEq, Repr

namespace Firings

/-- No firings. -/
def none : Firings :=
  ⟨[]⟩

/-- Adds one to the counter of a name in an ascending list. -/
def increment (name : String) : List (String × UInt32) → List (String × UInt32)
  | [] => [(name, 1)]
  | (other, count) :: rest =>
    if name = other then (other, count + 1) :: rest
    else if name < other then (name, 1) :: (other, count) :: rest
    else (other, count) :: increment name rest

/-- The firings with one more of the named rule. -/
def record (firings : Firings) (name : String) : Firings :=
  ⟨increment name firings.counts⟩

/-- How often the named rule fired. -/
def count (firings : Firings) (name : String) : UInt32 :=
  (firings.counts.lookup name).getD 0

end Firings

/-- What a run leaves: the firings counted so far, the log, and the plan or an error. -/
structure Run where
  firings : Firings
  log : List LogEntry
  outcome : Except Error Plan

namespace Run

/-- The run with entries in front of its log. -/
def behind (entries : List LogEntry) (run : Run) : Run :=
  { run with log := entries ++ run.log }

end Run

/-- The entry for a run that has reached the most firings. -/
def limitEntry (settings : Settings) : LogEntry where
  level := .warn
  message := "stop optimizing after " ++ toString settings.maxFirings.toNat ++ " rule firings"

/-- The entry for a transformed plan that is not valid. -/
def invalidEntry (error : Error) : LogEntry where
  level := .error
  message := "invalid plan after rewrite: " ++ error.message

/-- Validates a transformed plan if the settings ask for it. -/
def Settings.check (settings : Settings) (plan : Plan) : Except Error Unit :=
  if settings.validates then plan.validate settings.caseRule none else .ok ()

/-- Transforms a plan with `remaining` firings at most. -/
def transformUpTo (rules : List Rule) (settings : Settings) :
    (remaining : Nat) → Firings → Plan → Run
  | 0, firings, plan => ⟨firings, [limitEntry settings], .ok plan⟩
  | remaining + 1, firings, plan =>
    let search := plan.step rules settings
    match search.outcome with
    | .error error => ⟨firings, search.log, .error error⟩
    | .ok none => ⟨firings, search.log, .ok plan⟩
    | .ok (some firing) =>
      let firings := firings.record firing.rule
      match settings.check firing.result with
      | .error error => ⟨firings, search.log ++ [invalidEntry error], .error error⟩
      | .ok () =>
        (transformUpTo rules settings remaining firings firing.result).behind search.log

/-- Rules with settings, and the firings counted so far. -/
structure Optimizer where
  rules : List Rule
  settings : Settings
  firings : Firings

namespace Optimizer

/-- An optimizer that has not run yet. -/
def create (rules : List Rule) (settings : Settings) : Optimizer :=
  ⟨rules, settings, .none⟩

/-- One run on a plan. -/
def optimize (optimizer : Optimizer) (plan : Plan) : Run :=
  transformUpTo optimizer.rules optimizer.settings optimizer.settings.maxFirings.toNat
    optimizer.firings plan

/-- The optimizer after a run on a plan. -/
def afterRun (optimizer : Optimizer) (plan : Plan) : Optimizer :=
  { optimizer with firings := (optimizer.optimize plan).firings }

/-- Runs on one plan after the other. Each run goes on counting where the last one ended, also
where that one failed. -/
def optimizeAll (optimizer : Optimizer) : List Plan → List Run
  | [] => []
  | plan :: rest => optimizer.optimize plan :: optimizeAll (optimizer.afterRun plan) rest

end Optimizer

end Lateral
