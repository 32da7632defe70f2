import Lateral.Proofs.Plan.Structure

/-!
# Places in plans

A place in a plan is given by the plan with a hole in the place, a context.
`Replaces` says that two plans differ in one place, the ancestors of which are
rebuilt over their new inputs with `Plan.withChildren`; this is the same as filling
one context in two ways (`replaces_iff_exists_context`). The nodes of a filled
context are those visited before the place, those in the place, and those visited
after it (`nodes_fill`).
-/

namespace Lateral.Plan

/-- A plan with a hole in one place. -/
inductive Context where
  | hole
  | project (projection : Projection) (inner : Context)
  | inLeft (correlation : Correlation) (inner : Context) (right : Plan)
  | inRight (correlation : Correlation) (left : Plan) (inner : Context)
  | scan (source : Scan) (before : List Plan) (inner : Context) (after : List Plan)

/-- The second plan is the first one with `replacement` in one of the places of `node`. -/
inductive Replaces (node replacement : Plan) : Plan → Plan → Prop where
  | here : Replaces node replacement node replacement
  | under {plan child newChild : Plan} {index : Nat} (found : plan.children[index]? = some child)
      (inChild : Replaces node replacement child newChild) :
      Replaces node replacement plan (plan.withChildren (plan.children.set index newChild))

namespace Context

/-- The plan with another plan in the hole. -/
def fill : Context → Plan → Plan
  | .hole, node => node
  | .project projection inner, node => .project projection (inner.fill node)
  | .inLeft correlation inner right, node => .correlate correlation (inner.fill node) right
  | .inRight correlation left inner, node => .correlate correlation left (inner.fill node)
  | .scan source before inner after, node => .scan source (before ++ inner.fill node :: after)

/-- The nodes that are visited before the hole, when `node` fills it. -/
def before (node : Plan) : Context → List Plan
  | .hole => []
  | .project projection inner => .project projection (inner.fill node) :: inner.before node
  | .inLeft correlation inner right =>
    .correlate correlation (inner.fill node) right :: inner.before node
  | .inRight correlation left inner =>
    .correlate correlation left (inner.fill node) :: (left.nodes ++ inner.before node)
  | .scan source before inner after =>
    .scan source (before ++ inner.fill node :: after) ::
      (before.flatMap nodes ++ inner.before node)

/-- The nodes that are visited after what is in the hole. -/
def after : Context → List Plan
  | .hole => []
  | .project _ inner => inner.after
  | .inLeft _ inner right => inner.after ++ right.nodes
  | .inRight _ _ inner => inner.after
  | .scan _ _ inner after => inner.after ++ after.flatMap nodes

/-- The context with another context in the hole. -/
def comp : Context → Context → Context
  | .hole, inner => inner
  | .project projection outer, inner => .project projection (outer.comp inner)
  | .inLeft correlation outer right, inner => .inLeft correlation (outer.comp inner) right
  | .inRight correlation left outer, inner => .inRight correlation left (outer.comp inner)
  | .scan source before outer after, inner => .scan source before (outer.comp inner) after

@[simp] theorem fill_comp (outer inner : Context) (node : Plan) :
    (outer.comp inner).fill node = outer.fill (inner.fill node) := by
  induction outer with
  | hole => rfl
  | project projection outer inductionHypothesis => simp [comp, fill, inductionHypothesis]
  | inLeft correlation outer right inductionHypothesis => simp [comp, fill, inductionHypothesis]
  | inRight correlation left outer inductionHypothesis => simp [comp, fill, inductionHypothesis]
  | scan source before outer after inductionHypothesis => simp [comp, fill, inductionHypothesis]

/-- The nodes before the inner hole are those before the outer one and those between the two. -/
@[simp] theorem before_comp (outer inner : Context) (node : Plan) :
    (outer.comp inner).before node = outer.before (inner.fill node) ++ inner.before node := by
  induction outer with
  | hole => rfl
  | project projection outer inductionHypothesis => simp [comp, before, inductionHypothesis]
  | inLeft correlation outer right inductionHypothesis =>
      simp [comp, before, inductionHypothesis]
  | inRight correlation left outer inductionHypothesis =>
      simp [comp, before, inductionHypothesis]
  | scan source before outer after inductionHypothesis =>
      simp [comp, Context.before, inductionHypothesis]

/-- The nodes of a filled context, in the order in which they are visited. -/
theorem nodes_fill (context : Context) (node : Plan) :
    (context.fill node).nodes = context.before node ++ node.nodes ++ context.after := by
  induction context with
  | hole => simp [fill, before, after]
  | project projection inner inductionHypothesis =>
      simp [fill, before, after, nodes, inductionHypothesis]
  | inLeft correlation inner right inductionHypothesis =>
      simp [fill, before, after, nodes, inductionHypothesis]
  | inRight correlation left inner inductionHypothesis =>
      simp [fill, before, after, nodes, inductionHypothesis]
  | scan source before inner after inductionHypothesis =>
      simp [fill, Context.before, Context.after, nodes, nodesAll_eq_flatMap, inductionHypothesis]

/-- What fills a context is a node of the plan. -/
theorem mem_nodes_fill (context : Context) (node : Plan) : node ∈ (context.fill node).nodes := by
  rw [nodes_fill]
  simp [mem_nodes_self]

/-- Plans of the same schema in the hole make plans of the same schema. -/
theorem schema_fill (context : Context) {node replacement : Plan}
    (sameSchema : replacement.schema = node.schema) :
    (context.fill replacement).schema = (context.fill node).schema := by
  induction context with
  | hole => exact sameSchema
  | project projection inner inductionHypothesis => rfl
  | inLeft correlation inner right inductionHypothesis => simp [fill, schema, inductionHypothesis]
  | inRight correlation left inner inductionHypothesis => simp [fill, schema, inductionHypothesis]
  | scan source before inner after inductionHypothesis => rfl

end Context

/-- Each node of a plan has a place in it. -/
theorem exists_context_of_mem_nodes {plan node : Plan} (member : node ∈ plan.nodes) :
    ∃ context : Context, plan = context.fill node := by
  induction plan with
  | values schema rows =>
      obtain rfl := List.mem_singleton.mp member
      exact ⟨.hole, rfl⟩
  | project projection input inductionHypothesis =>
      rcases List.mem_cons.mp member with rfl | member
      · exact ⟨.hole, rfl⟩
      · obtain ⟨inner, rfl⟩ := inductionHypothesis member
        exact ⟨.project projection inner, rfl⟩
  | correlate correlation left right leftHypothesis rightHypothesis =>
      rcases List.mem_cons.mp member with rfl | member
      · exact ⟨.hole, rfl⟩
      · rcases List.mem_append.mp member with member | member
        · obtain ⟨inner, rfl⟩ := leftHypothesis member
          exact ⟨.inLeft correlation inner right, rfl⟩
        · obtain ⟨inner, rfl⟩ := rightHypothesis member
          exact ⟨.inRight correlation left inner, rfl⟩
  | scan source inputs inductionHypothesis =>
      rcases List.mem_cons.mp member with rfl | member
      · exact ⟨.hole, rfl⟩
      · rw [nodesAll_eq_flatMap] at member
        obtain ⟨input, isInput, inInput⟩ := List.mem_flatMap.mp member
        obtain ⟨before, after, rfl⟩ := List.append_of_mem isInput
        obtain ⟨inner, rfl⟩ := inductionHypothesis input isInput inInput
        exact ⟨.scan source before inner after, rfl⟩

/-- Two plans differ in one place exactly when they fill one context. -/
theorem replaces_iff_exists_context {node replacement plan result : Plan} :
    Replaces node replacement plan result ↔
      ∃ context : Context, plan = context.fill node ∧ result = context.fill replacement := by
  constructor
  · intro replaced
    induction replaced with
    | here => exact ⟨.hole, rfl, rfl⟩
    | @under plan child newChild index found inChild inductionHypothesis =>
        obtain ⟨inner, rfl, rfl⟩ := inductionHypothesis
        cases plan with
        | values schema rows => simp [children] at found
        | project projection input =>
            cases index with
            | zero =>
                obtain rfl : input = inner.fill node := by simpa [children] using found
                exact ⟨.project projection inner, rfl, rfl⟩
            | succ index => simp [children] at found
        | correlate correlation left right =>
            match index with
            | 0 =>
                obtain rfl : left = inner.fill node := by simpa [children] using found
                exact ⟨.inLeft correlation inner right, rfl, rfl⟩
            | 1 =>
                obtain rfl : right = inner.fill node := by simpa [children] using found
                exact ⟨.inRight correlation left inner, rfl, rfl⟩
            | index + 2 => simp [children] at found
        | scan source inputs =>
            obtain ⟨inside, isChild⟩ := List.getElem?_eq_some_iff.mp found
            obtain ⟨before, after, rfl, rfl⟩ : ∃ before after,
                inputs = before ++ inner.fill node :: after ∧ before.length = index :=
              ⟨inputs.take index, inputs.drop (index + 1), by simp [← isChild, children],
                List.length_take_of_le (Nat.le_of_lt inside)⟩
            exact ⟨.scan source before inner after, rfl, by
              simp [Context.fill, children, withChildren]⟩
  · rintro ⟨context, rfl, rfl⟩
    induction context with
    | hole => exact .here
    | project projection inner inductionHypothesis =>
        have found : (Context.fill (.project projection inner) node).children[0]? =
            some (inner.fill node) := rfl
        exact .under found inductionHypothesis
    | inLeft correlation inner right inductionHypothesis =>
        have found : (Context.fill (.inLeft correlation inner right) node).children[0]? =
            some (inner.fill node) := rfl
        exact .under found inductionHypothesis
    | inRight correlation left inner inductionHypothesis =>
        have found : (Context.fill (.inRight correlation left inner) node).children[1]? =
            some (inner.fill node) := rfl
        exact .under found inductionHypothesis
    | scan source before inner after inductionHypothesis =>
        have found : (Context.fill (.scan source before inner after) node).children[before.length]? =
            some (inner.fill node) := by simp [Context.fill, children]
        simpa [Context.fill, children, withChildren] using
          Replaces.under found inductionHypothesis

end Lateral.Plan
