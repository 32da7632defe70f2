import Lateral.Plan.Basic

/-!
# Explanation of plans

The text that shows a plan: one operator on each line, inputs below their
operator and two spaces further in.
-/

namespace Lateral.Plan

/-- The line of a root at a depth. -/
def line (depth : Nat) (plan : Plan) : String :=
  "".pushn ' ' (2 * depth) ++ plan.text ++ "\n"

mutual

/-- The lines of a plan whose root stands at a depth. -/
def explainAt (depth : Nat) : Plan → String
  | .values schema rows => line depth (.values schema rows)
  | .project projection input =>
    line depth (.project projection input) ++ explainAt (depth + 1) input
  | .correlate correlation left right =>
    line depth (.correlate correlation left right) ++ explainAt (depth + 1) left
      ++ explainAt (depth + 1) right
  | .scan source inputs => line depth (.scan source inputs) ++ explainAllAt (depth + 1) inputs

/-- The lines of a list of plans, one plan behind the other. -/
def explainAllAt (depth : Nat) : List Plan → String
  | [] => ""
  | plan :: rest => explainAt depth plan ++ explainAllAt depth rest

end

/-- The lines of a plan. -/
def explain (plan : Plan) : String :=
  explainAt 0 plan

end Lateral.Plan
