import Lateral.Function.Table
import Lateral.Proofs.Plan.Execution

/-!
# Inner and left joins

A correlate runs its right input for each left row, whatever its kind, so the two kinds succeed
together and fail for the same reason. Their rows come from the same parts, each left row with the
right rows that are produced for it (`Plan.JoinParts`). The rows of both kinds are read off one
list that says of each row where it comes from (`JoinedRow`): a right row made of nulls only is
not taken for the nulls that stand behind a left row without right rows.
-/

namespace Lateral

/-- Where a row of a left join comes from: a left row and one of its right rows, or a left row
that has none. -/
inductive JoinedRow where
  | matched (leftRow rightRow : Row)
  | unmatched (leftRow : Row)

namespace JoinedRow

/-- The rows of a left join for a left row and the right rows that are produced for it. -/
def ofParts (leftRow : Row) : List Row → List JoinedRow
  | [] => [.unmatched leftRow]
  | first :: others => (first :: others).map (.matched leftRow)

/-- Whether there is a right row in the row. -/
def isMatched : JoinedRow → Bool
  | .matched _ _ => true
  | .unmatched _ => false

/-- The values of the row, with a null for each right field where there is no right row. -/
def values (rightWidth : Nat) : JoinedRow → Row
  | .matched leftRow rightRow => leftRow ++ rightRow
  | .unmatched leftRow => leftRow ++ List.replicate rightWidth .null

/-- All rows made of a right row are kept when the unmatched ones are dropped. -/
theorem filter_isMatched_map_matched (leftRow : Row) (rightRows : List Row) :
    (rightRows.map (matched leftRow)).filter isMatched = rightRows.map (matched leftRow) := by
  rw [List.filter_eq_self]
  intro joined member
  obtain ⟨rightRow, -, rfl⟩ := List.mem_map.mp member
  rfl

/-- The rows of a left correlate for one left row. -/
theorem joinRow_left (rightWidth : Nat) (leftRow : Row) (rightRows : List Row) :
    Plan.joinRow .left rightWidth leftRow rightRows =
      (ofParts leftRow rightRows).map (values rightWidth) := by
  cases rightRows with
  | nil => rfl
  | cons first others => simp [Plan.joinRow, ofParts, values]

/-- The rows of an inner correlate for one left row are the matched ones of a left correlate. -/
theorem joinRow_inner (rightWidth : Nat) (leftRow : Row) (rightRows : List Row) :
    Plan.joinRow .inner rightWidth leftRow rightRows =
      ((ofParts leftRow rightRows).filter isMatched).map (values rightWidth) := by
  cases rightRows with
  | nil => rfl
  | cons first others =>
      rw [ofParts, filter_isMatched_map_matched]
      simp [Plan.joinRow, values]

end JoinedRow

namespace Plan

/-- The left rows of a correlate in order, each with the right rows that are produced for it. -/
structure JoinParts (outer : Option Row) (left right : Plan) (parts : List (Row × List Row)) :
    Prop where
  left : run outer left = .ok (parts.map Prod.fst)
  right : ∀ part ∈ parts, run (some part.1) right = .ok part.2

/-- A join succeeds when the right side runs for each left row, and gives the rows of one left
row behind those of the other. -/
theorem joinRows_eq_ok_iff {join : JoinKind} {width : Nat}
    {runRight : Row → Except Error (List Row)} {leftRows rows : List Row} :
    joinRows join width runRight leftRows = .ok rows ↔
      ∃ parts : List (Row × List Row), parts.map Prod.fst = leftRows ∧
        (∀ part ∈ parts, runRight part.1 = .ok part.2) ∧
          rows = parts.flatMap fun part => joinRow join width part.1 part.2 := by
  induction leftRows generalizing rows with
  | nil =>
      constructor
      · intro joined
        obtain rfl := Except.ok.inj joined
        exact ⟨[], rfl, by simp, rfl⟩
      · rintro ⟨parts, isLeft, -, rfl⟩
        obtain rfl := List.map_eq_nil_iff.mp isLeft
        rfl
  | cons leftRow rest inductionHypothesis =>
      rw [joinRows_cons_eq_ok_iff]
      constructor
      · rintro ⟨rightRows, others, first, later, rfl⟩
        obtain ⟨parts, rfl, ran, rfl⟩ := inductionHypothesis.mp later
        exact ⟨(leftRow, rightRows) :: parts, rfl, List.forall_mem_cons.mpr ⟨first, ran⟩, rfl⟩
      · rintro ⟨parts, isLeft, ran, rfl⟩
        obtain ⟨⟨row, rightRows⟩, parts, rfl, rfl, rfl⟩ := List.map_eq_cons_iff.mp isLeft
        obtain ⟨first, later⟩ := List.forall_mem_cons.mp ran
        exact ⟨rightRows, _, first, inductionHypothesis.mpr ⟨parts, rfl, later, rfl⟩, rfl⟩

theorem joinRows_cons_eq_error_iff {join : JoinKind} {width : Nat}
    {runRight : Row → Except Error (List Row)} {leftRow : Row} {rest : List Row} {error : Error} :
    joinRows join width runRight (leftRow :: rest) = .error error ↔
      runRight leftRow = .error error ∨ ∃ rightRows, runRight leftRow = .ok rightRows ∧
        joinRows join width runRight rest = .error error := by
  cases first : runRight leftRow <;> cases later : joinRows join width runRight rest <;>
    simp [joinRows, first, later]

/-- Whether and why a join fails does not depend on its kind. -/
theorem joinRows_eq_error_iff {join other : JoinKind} {width : Nat}
    {runRight : Row → Except Error (List Row)} {leftRows : List Row} {error : Error} :
    joinRows join width runRight leftRows = .error error ↔
      joinRows other width runRight leftRows = .error error := by
  induction leftRows with
  | nil => simp [joinRows]
  | cons leftRow rest inductionHypothesis =>
      simp only [joinRows_cons_eq_error_iff, inductionHypothesis]

section

variable {outer : Option Row} {correlation : Correlation} {left right : Plan}

/-- The rows of a correlate are those for each of its left rows, one behind the other. -/
theorem run_correlate_eq_ok_iff_parts {rows : List Row} :
    run outer (.correlate correlation left right) = .ok rows ↔
      ∃ parts, JoinParts outer left right parts ∧ rows = parts.flatMap fun part =>
        joinRow correlation.join right.schema.length part.1 part.2 := by
  rw [run_correlate_eq_ok_iff]
  constructor
  · rintro ⟨leftRows, leftRan, joined⟩
    obtain ⟨parts, rfl, rightRan, rfl⟩ := joinRows_eq_ok_iff.mp joined
    exact ⟨parts, ⟨leftRan, rightRan⟩, rfl⟩
  · rintro ⟨parts, produced, rfl⟩
    exact ⟨_, produced.left, joinRows_eq_ok_iff.mpr ⟨parts, rfl, produced.right, rfl⟩⟩

/-- Whether and why a correlate fails does not depend on its kind. -/
theorem run_correlate_eq_error_iff (join : JoinKind) {error : Error} :
    run outer (.correlate correlation left right) = .error error ↔
      run outer (.correlate { correlation with join := join } left right) = .error error := by
  cases leftRan : run outer left with
  | error leftError => simp [run, leftRan]
  | ok leftRows =>
      simp only [run, leftRan]
      exact joinRows_eq_error_iff

end

/-- The rows of a left join of parts, each with where it comes from. -/
def joinedRows (parts : List (Row × List Row)) : List JoinedRow :=
  parts.flatMap fun part => JoinedRow.ofParts part.1 part.2

/-- A left and an inner correlate of the same inputs differ by the padding alone. Inside of any
correlate and outside they are prepared alike, fail for the same reason and succeed together. The
left one then gives, for each left row in order, the row with each of the right rows produced for
it, or once with nulls when there are none; the inner one gives the same rows in the same order
without those that were padded. -/
theorem run_left_and_inner (outer : Option Row) (correlation : Correlation) (left right : Plan) :
    let joining (join : JoinKind) := Plan.correlate { correlation with join := join } left right
    (joining .left).schema = (joining .inner).schema ∧
    (joining .left).prepare = (joining .inner).prepare ∧
    (∀ error, run outer (joining .left) = .error error ↔
      run outer (joining .inner) = .error error) ∧
    ((∃ rows, run outer (joining .left) = .ok rows) ↔
      ∃ rows, run outer (joining .inner) = .ok rows) ∧
    ((∃ rows, run outer (joining .left) = .ok rows) ↔
      ∃ parts, JoinParts outer left right parts) ∧
    ∀ parts, JoinParts outer left right parts →
      run outer (joining .left) =
        .ok ((joinedRows parts).map (JoinedRow.values right.schema.length)) ∧
      run outer (joining .inner) =
        .ok (((joinedRows parts).filter JoinedRow.isMatched).map
          (JoinedRow.values right.schema.length)) := by
  intro joining
  have runs (join : JoinKind) : (∃ rows, run outer (joining join) = .ok rows) ↔
      ∃ parts, JoinParts outer left right parts := by
    simp only [joining, run_correlate_eq_ok_iff_parts]
    exact ⟨fun ⟨_, parts, produced, _⟩ => ⟨parts, produced⟩,
      fun ⟨parts, produced⟩ => ⟨_, parts, produced, rfl⟩⟩
  refine ⟨rfl, rfl, fun error => run_correlate_eq_error_iff .inner,
    (runs .left).trans (runs .inner).symm, runs .left, fun parts produced => ⟨?_, ?_⟩⟩
  · refine run_correlate_eq_ok_iff_parts.mpr ⟨parts, produced, ?_⟩
    simp only [joinedRows, List.map_flatMap, JoinedRow.joinRow_left]
  · refine run_correlate_eq_ok_iff_parts.mpr ⟨parts, produced, ?_⟩
    simp only [joinedRows, List.filter_flatMap, List.map_flatMap, JoinedRow.joinRow_inner]

/-- The right field of `RANGE($0)` in a left correlate with no right rows: one null for each
integer of the range. -/
def nullsOfRange : Plan :=
  .project ⟨[.ref 1 .int], ["y"]⟩ <|
    .correlate ⟨1, .empty, .left, .sensitive⟩
      (.scan ⟨.call (.table (.range "RANGE")) [.ref 0 .int] .int, .int, [⟨"range", .int⟩], []⟩ [])
      (.values [⟨"y", .int⟩] [])

/-- The row that is joined with a null is kept, the row that is padded with one is not. -/
theorem run_left_and_inner_nullsOfRange :
    let left : Plan := .values [⟨"x", .int⟩] [[.int 1], [.int 0]]
    JoinParts none left nullsOfRange [([.int 1], [[.null]]), ([.int 0], [])] ∧
    run none (.correlate ⟨0, .empty, .left, .sensitive⟩ left nullsOfRange) =
      .ok [[.int 1, .null], [.int 0, .null]] ∧
    run none (.correlate ⟨0, .empty, .inner, .sensitive⟩ left nullsOfRange) =
      .ok [[.int 1, .null]] := by
  intro left
  have produced : JoinParts none left nullsOfRange [([.int 1], [[.null]]), ([.int 0], [])] := by
    refine ⟨rfl, ?_⟩
    simp only [List.forall_mem_cons, List.not_mem_nil, false_implies, implies_true, and_true]
    exact ⟨rfl, rfl⟩
  obtain ⟨-, -, -, -, -, gives⟩ :=
    run_left_and_inner none ⟨0, .empty, .inner, .sensitive⟩ left nullsOfRange
  exact ⟨produced, gives _ produced⟩

end Plan

end Lateral
