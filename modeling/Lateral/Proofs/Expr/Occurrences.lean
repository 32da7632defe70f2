import Lateral.Proofs.Expr.Extraction

/-!
# Where calls stand

The nodes of an expression with the nodes above them (`occurrences`), in the order of
the nodes. The outermost calls of a dialect, which extraction takes, are the nodes that
are calls of the dialect and have none above them, each as often as it occurs
(`map_node_filter_occurrencesAll`).
-/

namespace Lateral.Expr

variable {dialect : Dialect}

/-- A node of an expression with the nodes above it, the nearest first. -/
structure Occurrence where
  node : Expr
  above : List Expr

/-- The node is a call of the dialect, and no node above it is one. -/
def Occurrence.isOutermost (dialect : Dialect) (occurrence : Occurrence) : Bool :=
  isCallOf dialect occurrence.node && !occurrence.above.any (isCallOf dialect)

mutual

/-- The nodes of an expression that stands below the given nodes, each before its operands. -/
def occurrences (above : List Expr) : Expr → List Occurrence
  | .ref index type => [⟨.ref index type, above⟩]
  | .const value type => [⟨.const value type, above⟩]
  | .call function operands type =>
    ⟨.call function operands type, above⟩ ::
      occurrencesAll (.call function operands type :: above) operands

/-- The nodes of a list of expressions that all stand below the given nodes. -/
def occurrencesAll (above : List Expr) : List Expr → List Occurrence
  | [] => []
  | expression :: rest => occurrences above expression ++ occurrencesAll above rest

end

mutual

/-- Each node occurs once, in the order of the nodes. -/
theorem map_node_occurrences (above : List Expr) : (expression : Expr) →
    (occurrences above expression).map Occurrence.node = expression.nodes
  | .ref .. => rfl
  | .const .. => rfl
  | .call function operands type => by
      have below := map_node_occurrencesAll (.call function operands type :: above) operands
      simp [occurrences, nodes, below]

/-- The same for a list of expressions. -/
theorem map_node_occurrencesAll (above : List Expr) : (expressions : List Expr) →
    (occurrencesAll above expressions).map Occurrence.node = nodesAll expressions
  | [] => rfl
  | expression :: rest => by
      have first := map_node_occurrences above expression
      have later := map_node_occurrencesAll above rest
      simp [occurrencesAll, nodesAll, first, later]

end

mutual

/-- Whatever an expression stands below, its nodes stand below. -/
theorem suffix_above_of_mem_occurrences {occurrence : Occurrence} {above : List Expr} :
    (expression : Expr) → occurrence ∈ occurrences above expression → above <:+ occurrence.above
  | .ref .., member => by
      obtain rfl := List.mem_singleton.mp member
      exact List.suffix_rfl
  | .const .., member => by
      obtain rfl := List.mem_singleton.mp member
      exact List.suffix_rfl
  | .call function operands type, member => by
      rcases List.mem_cons.mp member with rfl | inOperands
      · exact List.suffix_rfl
      · exact (List.suffix_cons _ above).trans
          (suffix_above_of_mem_occurrencesAll operands inOperands)

/-- The same for a list of expressions. -/
theorem suffix_above_of_mem_occurrencesAll {occurrence : Occurrence} {above : List Expr} :
    (expressions : List Expr) → occurrence ∈ occurrencesAll above expressions →
      above <:+ occurrence.above
  | [], member => by cases member
  | expression :: rest, member => by
      rcases List.mem_append.mp member with inFirst | inRest
      · exact suffix_above_of_mem_occurrences expression inFirst
      · exact suffix_above_of_mem_occurrencesAll rest inRest

end

/-- Below a call of the dialect there is no outermost one. -/
theorem filter_occurrencesAll_of_below {above : List Expr} {call : Expr} (member : call ∈ above)
    (selected : isCallOf dialect call = true) (expressions : List Expr) :
    (occurrencesAll above expressions).filter (Occurrence.isOutermost dialect) = [] := by
  refine List.filter_eq_nil_iff.mpr fun occurrence isOccurrence outermost => ?_
  have calledAbove := (suffix_above_of_mem_occurrencesAll expressions isOccurrence).subset member
  have noneAbove := (Bool.and_eq_true_iff.mp outermost).2
  simp only [Bool.not_eq_true', List.any_eq_false] at noneAbove
  exact noneAbove call calledAbove selected

mutual

/-- Where no call of the dialect is above an expression, its outermost ones are the nodes that are
calls of the dialect with none above them. -/
theorem map_node_filter_occurrences {above : List Expr}
    (noneAbove : above.any (isCallOf dialect) = false) : (expression : Expr) →
    ((occurrences above expression).filter (Occurrence.isOutermost dialect)).map Occurrence.node =
      outermost (isCallOf dialect) expression
  | .ref .. => by simp [occurrences, Occurrence.isOutermost, isCallOf, outermost]
  | .const .. => by simp [occurrences, Occurrence.isOutermost, isCallOf, outermost]
  | .call function operands type => by
      unfold occurrences outermost
      split
      · next selected =>
          have isAbove : Expr.call function operands type ∈
              Expr.call function operands type :: above := List.mem_cons_self
          have below := filter_occurrencesAll_of_below isAbove selected operands
          simp [Occurrence.isOutermost, selected, noneAbove, below]
      · next notSelected =>
          have stillNone : (Expr.call function operands type :: above).any (isCallOf dialect) =
              false := by
            simpa [notSelected] using noneAbove
          have below := map_node_filter_occurrencesAll stillNone operands
          simp [Occurrence.isOutermost, notSelected, below]

/-- The same for a list of expressions. -/
theorem map_node_filter_occurrencesAll {above : List Expr}
    (noneAbove : above.any (isCallOf dialect) = false) : (expressions : List Expr) →
    ((occurrencesAll above expressions).filter (Occurrence.isOutermost dialect)).map
        Occurrence.node = outermostAll (isCallOf dialect) expressions
  | [] => rfl
  | expression :: rest => by
      have first := map_node_filter_occurrences noneAbove expression
      have later := map_node_filter_occurrencesAll noneAbove rest
      simp [occurrencesAll, outermostAll, first, later]

end

mutual

/-- An expression has a call of a dialect exactly when one of its nodes is such a call. -/
theorem hasCallOf_eq_any_nodes (dialect : Dialect) : (expression : Expr) →
    expression.hasCallOf dialect = expression.nodes.any (isCallOf dialect)
  | .ref .. => rfl
  | .const .. => rfl
  | .call function operands type => by
      have below := anyHasCallOf_eq_any_nodesAll dialect operands
      simp [hasCallOf, nodes, isCallOf, below]

/-- The same for a list of expressions. -/
theorem anyHasCallOf_eq_any_nodesAll (dialect : Dialect) : (expressions : List Expr) →
    anyHasCallOf dialect expressions = (nodesAll expressions).any (isCallOf dialect)
  | [] => rfl
  | expression :: rest => by
      have first := hasCallOf_eq_any_nodes dialect expression
      have later := anyHasCallOf_eq_any_nodesAll dialect rest
      simp [anyHasCallOf, nodesAll, first, later]

end

end Lateral.Expr
