import Lateral.Proofs.Expr.Occurrences

/-!
# The references left for extracted calls

Extraction leaves a reference for each call it takes. Placed behind a row they refer to
one field after the other, in the order of the calls and with their types
(`filter_nodesAll_extractAll`). Indices of 64 bits place them in the same way as long as
none of them starts again at zero (`extractAll_fromOffset`), and in another way where one
does (`extractAll_complete_fails_wrapped`).
-/

namespace Lateral.Extraction

open Lateral.Expr

section Congruence

variable {extraction other : Extraction}

mutual

/-- Extractions that select the same calls, and place references alike as far as there are calls,
extract the same from an expression. -/
theorem extract_congr (sameCalls : extraction.selects = other.selects) (taken : List Expr) :
    (expression : Expr) →
    (∀ position < taken.length + (outermost extraction.selects expression).length,
      extraction.place position = other.place position) →
    extraction.extract taken expression = other.extract taken expression
  | .ref .., _ => rfl
  | .const .., _ => rfl
  | .call function operands type, samePlaces => by
      have below := extractAll_congr sameCalls taken operands
      unfold outermost at samePlaces
      unfold extract
      rw [← sameCalls]
      split
      · next selected =>
          rw [if_pos selected] at samePlaces
          rw [samePlaces taken.length (Nat.lt_succ_self taken.length)]
      · next notSelected =>
          rw [if_neg notSelected] at samePlaces
          rw [below samePlaces]

/-- The same for a list of expressions. -/
theorem extractAll_congr (sameCalls : extraction.selects = other.selects) (taken : List Expr) :
    (expressions : List Expr) →
    (∀ position < taken.length + (outermostAll extraction.selects expressions).length,
      extraction.place position = other.place position) →
    extraction.extractAll taken expressions = other.extractAll taken expressions
  | [], _ => rfl
  | expression :: rest, samePlaces => by
      simp only [outermostAll, List.length_append] at samePlaces
      have first := extract_congr sameCalls taken expression fun position inside =>
        samePlaces position (by omega)
      have later := extractAll_congr sameCalls (extraction.extract taken expression).2 rest
        fun position inside => samePlaces position (by simp at inside; omega)
      rw [extractAll, extractAll, ← first, later]

end

end Congruence

variable {dialect : Dialect}

/-- Indices of 64 bits that do not start again at zero are placed behind a row. -/
theorem place_fromOffset (offset : UInt64) (dialect : Dialect) {position : Nat}
    (fits : offset.toNat + position < UInt64.size) :
    (fromOffset offset dialect).place position = (behind offset.toNat dialect).place position := by
  have small : position < UInt64.size := by omega
  have noCarry : offset.toNat + position < 2 ^ 64 := fits
  simp only [fromOffset, behind, UInt64.toNat_add, UInt64.toNat_ofNat_of_lt' small,
    Nat.mod_eq_of_lt noCarry]

/-- With 64-bit indices the calls of a list of expressions are extracted into fields behind a row of
the width of the offset, if there are enough indices for all of them. -/
theorem extractAll_fromOffset {offset : UInt64} {expressions : List Expr}
    (fits : offset.toNat + (outermostAll (isCallOf dialect) expressions).length ≤ UInt64.size) :
    (fromOffset offset dialect).extractAll [] expressions =
      (behind offset.toNat dialect).extractAll [] expressions := by
  have sameCalls : (fromOffset offset dialect).selects = (behind offset.toNat dialect).selects := rfl
  refine extractAll_congr sameCalls [] expressions fun position inside =>
    place_fromOffset offset dialect ?_
  have below : position < (outermostAll (isCallOf dialect) expressions).length := by
    simpa [fromOffset] using inside
  omega

/-- The calls that are extracted from a list of expressions are the outermost selected ones. -/
theorem outermostAll_eq_of_extractAll {extraction : Extraction} {expressions freed calls : List Expr}
    (extracted : extraction.extractAll [] expressions = (freed, calls)) :
    outermostAll extraction.selects expressions = calls := by
  have taken := extractAll_snd extraction [] expressions
  rw [extracted] at taken
  exact taken.symm

/-- The node refers to a field behind a row of the given width. -/
def refersBehind (width : Nat) : Expr → Bool
  | .ref index _ => width ≤ index
  | _ => false

/-- References to one field after the other, from `start` on, with the types of the calls. -/
def placeholders (start : Nat) (calls : List Expr) : List Expr :=
  calls.mapIdx fun position call => .ref (start + position) call.type

theorem placeholders_append (start : Nat) (calls others : List Expr) :
    placeholders start (calls ++ others) =
      placeholders start calls ++ placeholders (start + calls.length) others := by
  simp [placeholders, List.mapIdx_append, Nat.add_assoc, Nat.add_comm calls.length]

mutual

/-- If references are placed behind the row, those behind the row in what is left of an expression
are the references to the fields of the extracted calls, in their order. -/
theorem filter_nodes_extract {extraction : Extraction} {width : Nat}
    (placed : ∀ position, extraction.place position = width + position) (taken : List Expr) :
    (expression : Expr) →
    (∀ index ∈ exposed extraction.selects expression, index < width) →
    (extraction.extract taken expression).1.nodes.filter (refersBehind width) =
      placeholders (width + taken.length) (outermost extraction.selects expression)
  | .ref index type, inside => by
      have inRow : index < width := inside index (by simp [exposed])
      simp [extract, outermost, nodes, refersBehind, placeholders, inRow]
  | .const .., _ => rfl
  | .call function operands type, inside => by
      unfold extract outermost
      unfold exposed at inside
      split
      · simp [nodes, refersBehind, placeholders, placed, Expr.type]
      · next notSelected =>
          rw [if_neg notSelected] at inside
          exact filter_nodesAll_extractAll placed taken operands inside

/-- The same for a list of expressions. -/
theorem filter_nodesAll_extractAll {extraction : Extraction} {width : Nat}
    (placed : ∀ position, extraction.place position = width + position) (taken : List Expr) :
    (expressions : List Expr) →
    (∀ index ∈ exposedAll extraction.selects expressions, index < width) →
    (nodesAll (extraction.extractAll taken expressions).1).filter (refersBehind width) =
      placeholders (width + taken.length) (outermostAll extraction.selects expressions)
  | [], _ => rfl
  | expression :: rest, inside => by
      simp only [exposedAll, List.forall_mem_append] at inside
      have first := filter_nodes_extract placed taken expression inside.1
      have later := filter_nodesAll_extractAll placed
        (taken ++ outermost extraction.selects expression) rest inside.2
      rw [List.length_append, ← Nat.add_assoc] at later
      simp only [extractAll, nodesAll, List.filter_append, extract_snd, first, later, outermostAll,
        placeholders_append]

end

/-- What is extracted from a list of expressions that stay within the row below the offset: all
calls of the dialect with none above them, each as often as it occurs and in the order of the nodes.
No call of the dialect is left at any depth. If there are indices for all of the calls, the
references behind the row in what is left are those to one field after the other, in the order of
the calls and each with the type of its call. -/
theorem extractAll_complete {offset : UInt64} {expressions freed calls : List Expr}
    (inside : ∀ index ∈ expressions.flatMap references, index < offset.toNat)
    (extracted : (fromOffset offset dialect).extractAll [] expressions = (freed, calls)) :
    calls = ((occurrencesAll [] expressions).filter (Occurrence.isOutermost dialect)).map
        Occurrence.node ∧
      (∀ node ∈ nodesAll freed, isCallOf dialect node = false) ∧
        (offset.toNat + calls.length ≤ UInt64.size →
          (nodesAll freed).filter (refersBehind offset.toNat) =
            calls.mapIdx fun position call => .ref (offset.toNat + position) call.type) := by
  obtain rfl : outermostAll (isCallOf dialect) expressions = calls :=
    outermostAll_eq_of_extractAll extracted
  refine ⟨(map_node_filter_occurrencesAll (by rfl) expressions).symm, ?_, fun fits => ?_⟩
  · have noneLeft : anyHasCallOf dialect freed = false := by
      have left := @anyHasCallOf_extractAll (fromOffset offset dialect) dialect rfl [] expressions
      rwa [extracted] at left
    rw [anyHasCallOf_eq_any_nodesAll, List.any_eq_false] at noneLeft
    simpa using noneLeft
  · have placed : ∀ position, (behind offset.toNat dialect).place position =
        offset.toNat + position := fun _ => rfl
    have behindRow := filter_nodesAll_extractAll placed [] expressions (lt_of_mem_exposedAll inside)
    rw [← extractAll_fromOffset fits, extracted] at behindRow
    exact behindRow

/-- A python function that gives its first argument back. -/
def echo : ScalarFunction where
  identity := "ECHO"
  name := "ECHO"
  dialect := .python
  resultType := .int
  invoke arguments := .ok (arguments.headD .null)

/-- A call of `ECHO`. -/
def echoOf (operand : Expr) : Expr :=
  .call (.scalar echo) [operand] .int

/-- The expressions `CONCAT(ECHO(ABS($0)), $1, ABS(ECHO($0)))`, `ECHO($0)` and
`ECHO(ABS(ECHO($1)))`. -/
def mixedExprs : List Expr :=
  [concatOf [echoOf (absOf (.ref 0 .int)), .ref 1 .string, absOf (echoOf (.ref 0 .int))],
    echoOf (.ref 0 .int), echoOf (absOf (echoOf (.ref 1 .int)))]

/-- Their outermost python calls. -/
def mixedCalls : List Expr :=
  [echoOf (absOf (.ref 0 .int)), echoOf (.ref 0 .int), echoOf (.ref 0 .int),
    echoOf (absOf (echoOf (.ref 1 .int)))]

/-- What extraction of the python calls behind two fields leaves of them:
`CONCAT($2, $1, ABS($3))`, `$4` and `$5`. -/
def mixedRest : List Expr :=
  [concatOf [.ref 2 .int, .ref 1 .string, absOf (.ref 3 .int)], .ref 4 .int, .ref 5 .int]

example : (fromOffset 2 .python).extractAll [] mixedExprs = (mixedRest, mixedCalls) :=
  rfl

/-- Behind two fields the outermost python calls of the expressions become the fields from `$2` to
`$5`, `ECHO($0)` twice, and the one inside of `ECHO(ABS(ECHO($1)))` stays there. -/
theorem extractAll_complete_mixedExprs :
    ((occurrencesAll [] mixedExprs).filter (Occurrence.isOutermost .python)).map
        Occurrence.node = mixedCalls ∧
      (∀ node ∈ nodesAll mixedRest, isCallOf .python node = false) ∧
        (nodesAll mixedRest).filter (refersBehind 2) =
          [.ref 2 .int, .ref 3 .int, .ref 4 .int, .ref 5 .int] := by
  have inside : ∀ index ∈ mixedExprs.flatMap references, index < (2 : UInt64).toNat := by decide
  have extracted : (fromOffset 2 .python).extractAll [] mixedExprs = (mixedRest, mixedCalls) := rfl
  obtain ⟨isOutermost, noneLeft, behindRow⟩ := extractAll_complete inside extracted
  exact ⟨isOutermost.symm, noneLeft, behindRow (by decide)⟩

/-- Behind the largest index there is none for a second call: its reference is `$0`, a field of the
row, and only the first call has a reference behind the row. -/
theorem extractAll_complete_fails_wrapped :
    (∀ index ∈ [absOf (.ref 0 .int), absOf (.ref 1 .int)].flatMap references,
        index < (18446744073709551615 : UInt64).toNat) ∧
      (fromOffset 18446744073709551615 .native).extractAll []
          [absOf (.ref 0 .int), absOf (.ref 1 .int)] =
        ([.ref 18446744073709551615 .int, .ref 0 .int],
          [absOf (.ref 0 .int), absOf (.ref 1 .int)]) ∧
      (nodesAll [.ref 18446744073709551615 .int, .ref 0 .int]).filter
          (refersBehind 18446744073709551615) ≠
        [absOf (.ref 0 .int), absOf (.ref 1 .int)].mapIdx fun position call =>
          .ref (18446744073709551615 + position) call.type := by
  refine ⟨by decide, rfl, fun same => ?_⟩
  have counts := congrArg List.length same
  exact absurd counts (by decide)

end Lateral.Extraction
