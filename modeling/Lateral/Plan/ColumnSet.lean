/-!
# Sets of columns

Finite sets of field positions, each kept as the one ascending list of its
members.
-/

namespace Lateral

/-- Positions of fields, in ascending order and without repetition. -/
structure ColumnSet where
  indices : List Nat
  ascending : indices.Pairwise (· < ·)
  deriving DecidableEq, Repr

namespace ColumnSet

/-- Puts a position in its place in an ascending list that may hold it already. -/
def insertSorted (index : Nat) : List Nat → List Nat
  | [] => [index]
  | first :: rest =>
    if index < first then index :: first :: rest
    else if index = first then first :: rest
    else first :: insertSorted index rest

/-- The inserted position is the only new one. -/
theorem mem_insertSorted {index other : Nat} {indices : List Nat}
    (member : other ∈ insertSorted index indices) : other = index ∨ other ∈ indices := by
  induction indices with
  | nil => simpa [insertSorted] using member
  | cons first rest inductionHypothesis =>
      grind [insertSorted]

/-- Insertion keeps a list ascending. -/
theorem pairwise_insertSorted (index : Nat) {indices : List Nat}
    (ascending : indices.Pairwise (· < ·)) : (insertSorted index indices).Pairwise (· < ·) := by
  induction indices with
  | nil => simp [insertSorted]
  | cons first rest inductionHypothesis =>
      have parts := List.pairwise_cons.mp ascending
      unfold insertSorted
      split
      · next below =>
          refine List.pairwise_cons.mpr ⟨fun other member => ?_, ascending⟩
          rcases List.mem_cons.mp member with rfl | member
          · exact below
          · exact Nat.lt_trans below (parts.1 other member)
      · split
        · exact ascending
        · refine List.pairwise_cons.mpr ⟨fun other member => ?_, inductionHypothesis parts.2⟩
          rcases mem_insertSorted member with rfl | member
          · omega
          · exact parts.1 other member

/-- No positions. -/
def empty : ColumnSet :=
  ⟨[], .nil⟩

/-- The set with one position more. -/
def insert (columns : ColumnSet) (index : Nat) : ColumnSet :=
  ⟨insertSorted index columns.indices, pairwise_insertSorted index columns.ascending⟩

/-- The set of the positions in a list. -/
def ofList (indices : List Nat) : ColumnSet :=
  indices.foldl insert empty

end ColumnSet

end Lateral
