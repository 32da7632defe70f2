import Lateral.Plan.Merge

/-!
# Structure of plans

Induction over a plan with a hypothesis for every input (`Plan.induct`), the nodes of
a plan in the order in which they are visited (`Plan.nodes`), and plans that are a
chain of projections over a scan (`Plan.EndsIn`).
-/

namespace Lateral.Plan

mutual

/-- Induction over a plan: what holds of a node when it holds of its inputs holds of every
plan. -/
@[elab_as_elim, induction_eliminator]
theorem induct {motive : Plan → Prop}
    (values : ∀ schema rows, motive (.values schema rows))
    (project : ∀ projection input, motive input → motive (.project projection input))
    (correlate : ∀ correlation left right, motive left → motive right →
      motive (.correlate correlation left right))
    (scan : ∀ source inputs, (∀ input ∈ inputs, motive input) → motive (.scan source inputs)) :
    ∀ plan, motive plan
  | .values schema rows => values schema rows
  | .project projection input =>
    project projection input (induct values project correlate scan input)
  | .correlate correlation left right =>
    correlate correlation left right (induct values project correlate scan left)
      (induct values project correlate scan right)
  | .scan source inputs => scan source inputs (inductAll values project correlate scan inputs)

/-- The inputs of a scan in the induction over a plan. -/
theorem inductAll {motive : Plan → Prop}
    (values : ∀ schema rows, motive (.values schema rows))
    (project : ∀ projection input, motive input → motive (.project projection input))
    (correlate : ∀ correlation left right, motive left → motive right →
      motive (.correlate correlation left right))
    (scan : ∀ source inputs, (∀ input ∈ inputs, motive input) → motive (.scan source inputs)) :
    ∀ plans : List Plan, ∀ plan ∈ plans, motive plan
  | [] => by simp
  | plan :: rest =>
    List.forall_mem_cons.mpr ⟨induct values project correlate scan plan,
      inductAll values project correlate scan rest⟩

end

/-- Induction over a plan with a hypothesis for each input of the root. -/
@[elab_as_elim]
theorem inductInputs {motive : Plan → Prop}
    (root : ∀ plan : Plan, (∀ input ∈ plan.children, motive input) → motive plan) :
    ∀ plan, motive plan := by
  intro plan
  induction plan with
  | values schema rows => exact root _ (List.forall_mem_nil _)
  | project projection input inductionHypothesis =>
      exact root _ (List.forall_mem_singleton.mpr inductionHypothesis)
  | correlate correlation left right inductionLeft inductionRight =>
      exact root _ <|
        List.forall_mem_cons.mpr ⟨inductionLeft, List.forall_mem_singleton.mpr inductionRight⟩
  | scan source inputs inductionHypothesis => exact root _ inductionHypothesis

mutual

/-- The nodes of a plan, each before its inputs, and the inputs in order. -/
def nodes : Plan → List Plan
  | .values schema rows => [.values schema rows]
  | .project projection input => .project projection input :: nodes input
  | .correlate correlation left right =>
    .correlate correlation left right :: (nodes left ++ nodes right)
  | .scan source inputs => .scan source inputs :: nodesAll inputs

/-- The nodes of a list of plans, one plan behind the other. -/
def nodesAll : List Plan → List Plan
  | [] => []
  | plan :: rest => nodes plan ++ nodesAll rest

end

theorem nodesAll_eq_flatMap (plans : List Plan) : nodesAll plans = plans.flatMap nodes := by
  induction plans with
  | nil => rfl
  | cons plan rest inductionHypothesis => simp [nodesAll, inductionHypothesis]

/-- The nodes of a plan are its root and the nodes of its inputs. -/
theorem nodes_eq (plan : Plan) : plan.nodes = plan :: plan.children.flatMap nodes := by
  cases plan with
  | values schema rows => rfl
  | project projection input => exact congrArg _ (List.flatMap_singleton _ _).symm
  | correlate correlation left right =>
      exact congrArg (_ :: nodes left ++ ·) (List.flatMap_singleton _ _).symm
  | scan source inputs => exact congrArg _ (nodesAll_eq_flatMap inputs)

/-- A plan is its own first node. -/
theorem exists_nodes_eq_cons (plan : Plan) : ∃ below, plan.nodes = plan :: below := by
  cases plan <;> exact ⟨_, rfl⟩

theorem mem_nodes_self (plan : Plan) : plan ∈ plan.nodes := by
  obtain ⟨below, isFirst⟩ := exists_nodes_eq_cons plan
  exact isFirst ▸ List.mem_cons_self

/-- A chain of projections over a scan, the scan itself included. -/
inductive EndsIn (source : Scan) (inputs : List Plan) : Plan → Prop where
  | scan : EndsIn source inputs (.scan source inputs)
  | project (projection : Projection) {input : Plan} (below : EndsIn source inputs input) :
      EndsIn source inputs (.project projection input)

/-- A plan is a chain over the scan that is found below its projections. -/
theorem endsIn_of_scanBelow? {plan : Plan} {source : Scan} {inputs : List Plan}
    (found : plan.scanBelow? = some (source, inputs)) : EndsIn source inputs plan := by
  induction plan with
  | values schema rows => cases found
  | project projection input inductionHypothesis =>
      exact .project projection (inductionHypothesis found)
  | correlate correlation left right _ _ => cases found
  | scan scan scanInputs _ =>
      obtain ⟨rfl, rfl⟩ : scan = source ∧ scanInputs = inputs := by
        simpa [scanBelow?] using found
      exact .scan

/-- The scan below the projections of a chain is the one that it ends in. -/
theorem EndsIn.scanBelow?_eq {plan : Plan} {source : Scan} {inputs : List Plan}
    (chain : EndsIn source inputs plan) : plan.scanBelow? = some (source, inputs) := by
  induction chain with
  | scan => rfl
  | project projection below inductionHypothesis => exact inductionHypothesis

/-- A chain of projections over a scan stands on the scan. -/
theorem EndsIn.belowProjections_eq {plan : Plan} {source : Scan} {inputs : List Plan}
    (chain : EndsIn source inputs plan) : plan.belowProjections = .scan source inputs := by
  induction chain with
  | scan => rfl
  | project projection below inductionHypothesis => exact inductionHypothesis

end Lateral.Plan
