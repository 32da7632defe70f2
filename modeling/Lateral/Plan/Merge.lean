import Lateral.Expr.Substitute
import Lateral.Plan.Basic

/-!
# Chains of projections

A chain of projections over one input computes what a single projection computes
whose expressions have those below put in place of their references.
-/

namespace Lateral

namespace Plan

/-- The scan, with its inputs, that a plan is or that a chain of projections at its root
ends in. -/
def scanBelow? : Plan → Option (Scan × List Plan)
  | .scan source inputs => some (source, inputs)
  | .project _ input => input.scanBelow?
  | .values .. => none
  | .correlate .. => none

/-- The input that a chain of projections at the root stands on, the plan itself without any. -/
def belowProjections : Plan → Plan
  | .project _ input => input.belowProjections
  | plan => plan

end Plan

namespace Projection

/-- The projection that computes on the end of the chain of projections below what this one
computes on `input`. It keeps its names. -/
def merged (projection : Projection) : (input : Plan) → Except Error Projection
  | .project lower input =>
    match merged lower input with
    | .ok bottom =>
      match Expr.substituteAll bottom.expressions projection.expressions with
      | .ok expressions => .ok ⟨expressions, projection.names⟩
      | .error error => .error error
    | .error error => .error error
  | _ => .ok projection

end Projection

end Lateral
