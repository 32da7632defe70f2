import Lateral.Expr.Extract
import Lateral.Proofs.Expr.Evaluation

/-!
# What extraction takes and what it leaves

Extraction takes the outermost selected calls, in order (`extract_snd`). What it
leaves of an expression has the value of the expression on a row with the values
of the extracted calls behind it (`eval_extract`), refers to what the expression
refers to outside of these calls and to their fields
(`mem_references_extract_iff`), and has no call of an extracted dialect
(`hasCallOf_extract`).
-/

namespace Lateral.Expr

mutual

/-- The selected calls of an expression that stand below no selected call, from left to right. -/
def outermost (selects : Expr → Bool) : Expr → List Expr
  | .ref .. => []
  | .const .. => []
  | .call function operands type =>
    if selects (.call function operands type) then [.call function operands type]
    else outermostAll selects operands

/-- The outermost selected calls of a list of expressions. -/
def outermostAll (selects : Expr → Bool) : List Expr → List Expr
  | [] => []
  | expression :: rest => outermost selects expression ++ outermostAll selects rest

end

mutual

/-- The indices of the references of an expression that stand below no selected call. -/
def exposed (selects : Expr → Bool) : Expr → List Nat
  | .ref index _ => [index]
  | .const .. => []
  | .call function operands type =>
    if selects (.call function operands type) then [] else exposedAll selects operands

/-- The indices of the references of a list of expressions that stand below no selected call. -/
def exposedAll (selects : Expr → Bool) : List Expr → List Nat
  | [] => []
  | expression :: rest => exposed selects expression ++ exposedAll selects rest

end

mutual

/-- A reference stands below no selected call, or in one of the outermost selected calls. -/
theorem mem_references_iff (selects : Expr → Bool) (index : Nat) : (expression : Expr) →
    (index ∈ expression.references ↔ index ∈ exposed selects expression ∨
      ∃ call ∈ outermost selects expression, index ∈ call.references)
  | .ref .. => by simp [exposed, outermost]
  | .const .. => by simp [exposed, outermost]
  | .call function operands type => by
      have below := mem_flatMap_references_iff selects index operands
      unfold exposed outermost
      split
      · simp
      · simpa using below

/-- The same for a list of expressions. -/
theorem mem_flatMap_references_iff (selects : Expr → Bool) (index : Nat) :
    (expressions : List Expr) →
    (index ∈ expressions.flatMap references ↔ index ∈ exposedAll selects expressions ∨
      ∃ call ∈ outermostAll selects expressions, index ∈ call.references)
  | [] => by simp [exposedAll, outermostAll]
  | expression :: rest => by
      have first := mem_references_iff selects index expression
      have later := mem_flatMap_references_iff selects index rest
      simp only [List.flatMap_cons, List.mem_append, first, later, exposedAll, outermostAll]
      grind

end

/-- Outside of the selected calls a list of expressions stays within a row that it stays within. -/
theorem lt_of_mem_exposedAll {selects : Expr → Bool} {expressions : List Expr} {width : Nat}
    (inside : ∀ index ∈ expressions.flatMap references, index < width) :
    ∀ index ∈ exposedAll selects expressions, index < width := fun index member =>
  inside index ((mem_flatMap_references_iff selects index expressions).mpr (.inl member))

mutual

/-- An expression has a call of a dialect exactly when it has an outermost one. -/
theorem hasCallOf_iff_outermost_ne_nil (dialect : Dialect) : (expression : Expr) →
    (expression.hasCallOf dialect = true ↔ outermost (isCallOf dialect) expression ≠ [])
  | .ref .. => by simp [hasCallOf, outermost]
  | .const .. => by simp [hasCallOf, outermost]
  | .call function operands type => by
      have below := anyHasCallOf_iff_outermostAll_ne_nil dialect operands
      by_cases selected : function.dialect = dialect
      · simp [hasCallOf, outermost, isCallOf, selected]
      · simpa [hasCallOf, outermost, isCallOf, selected] using below

/-- The same for a list of expressions. -/
theorem anyHasCallOf_iff_outermostAll_ne_nil (dialect : Dialect) : (expressions : List Expr) →
    (anyHasCallOf dialect expressions = true ↔ outermostAll (isCallOf dialect) expressions ≠ [])
  | [] => by simp [anyHasCallOf, outermostAll]
  | expression :: rest => by
      have first := hasCallOf_iff_outermost_ne_nil dialect expression
      have later := anyHasCallOf_iff_outermostAll_ne_nil dialect rest
      rw [anyHasCallOf, outermostAll, Bool.or_eq_true, first, later]
      simp only [ne_eq, List.append_eq_nil_iff, not_and_or]

end

mutual

/-- Where an expression has a value, its outermost selected calls have values. -/
theorem exists_evalAll_outermost (selects : Expr → Bool) {row : Row} : (expression : Expr) →
    {value : Value} → eval row expression = .ok value →
      ∃ values, evalAll row (outermost selects expression) = .ok values
  | .ref .., _, _ => ⟨[], rfl⟩
  | .const .., _, _ => ⟨[], rfl⟩
  | .call (.table function) operands type, _, evaluated => by simp [eval] at evaluated
  | .call (.scalar function) operands type, value, evaluated => by
      unfold outermost
      split
      · exact ⟨[value], by simp [evalAll, evaluated]⟩
      · unfold eval at evaluated
        split at evaluated
        · next arguments argumentsEvaluated =>
            exact exists_evalAll_outermostAll selects operands argumentsEvaluated
        · cases evaluated

/-- Where a list of expressions has values, its outermost selected calls have values. -/
theorem exists_evalAll_outermostAll (selects : Expr → Bool) {row : Row} :
    (expressions : List Expr) → {values : List Value} → evalAll row expressions = .ok values →
      ∃ values, evalAll row (outermostAll selects expressions) = .ok values
  | [], _, _ => ⟨[], rfl⟩
  | expression :: rest, _, evaluated => by
      obtain ⟨value, others, first, later, -⟩ := evalAll_cons_eq_ok_iff.mp evaluated
      obtain ⟨firstValues, firstEvaluated⟩ := exists_evalAll_outermost selects expression first
      obtain ⟨laterValues, laterEvaluated⟩ := exists_evalAll_outermostAll selects rest later
      exact ⟨firstValues ++ laterValues, evalAll_append firstEvaluated laterEvaluated⟩

end

end Lateral.Expr

namespace Lateral.Extraction

open Lateral.Expr

mutual

/-- Extraction takes the outermost selected calls. -/
@[simp] theorem extract_snd (extraction : Extraction) (taken : List Expr) : (expression : Expr) →
    (extraction.extract taken expression).2 = taken ++ outermost extraction.selects expression
  | .ref .. => by simp [extract, outermost]
  | .const .. => by simp [extract, outermost]
  | .call function operands type => by
      unfold extract outermost
      split
      · rfl
      · exact extractAll_snd extraction taken operands

/-- Extraction takes the outermost selected calls, from left to right. -/
@[simp] theorem extractAll_snd (extraction : Extraction) (taken : List Expr) :
    (expressions : List Expr) →
      (extraction.extractAll taken expressions).2 =
        taken ++ outermostAll extraction.selects expressions
  | [] => by simp [extractAll, outermostAll]
  | expression :: rest => by
      have first := extract_snd extraction taken expression
      have later := extractAll_snd extraction (extraction.extract taken expression).2 rest
      rw [extractAll, outermostAll, later, first, List.append_assoc]

end

/-- Step by step the same is left as of the list in one go. -/
theorem map_fst_steps (extraction : Extraction) (taken expressions : List Expr) :
    (extraction.steps taken expressions).map Prod.fst =
      (extraction.extractAll taken expressions).1 := by
  induction expressions generalizing taken with
  | nil => rfl
  | cons expression rest inductionHypothesis =>
      simp only [steps, extractAll, List.map_cons, inductionHypothesis]

mutual

/-- What is left of an expression has the value of the expression, on a row with the values of
the extracted calls behind it, if references are placed behind the row. -/
theorem eval_extract {extraction : Extraction} {row : Row} {calls : List Expr}
    {values : List Value} (placed : ∀ position, extraction.place position = row.length + position)
    (evaluated : evalAll row calls = .ok values) (taken : List Expr) : (expression : Expr) →
    (∀ index ∈ exposed extraction.selects expression, index < row.length) →
    taken ++ outermost extraction.selects expression <+: calls →
      eval (row ++ values) (extraction.extract taken expression).1 = eval row expression
  | .ref index type, inside, _ => by
      have within : ∀ other ∈ (Expr.ref index type).references, other < row.length := by
        simpa [exposed] using inside
      exact eval_append_right values within
  | .const .., _, _ => rfl
  | .call function operands type, inside, part => by
      unfold extract
      unfold exposed at inside
      unfold outermost at part
      split
      · next selected =>
          -- the reference is placed at the value of its call
          rw [if_pos selected] at part
          have found : calls[taken.length]? = some (.call function operands type) := by
            obtain ⟨rest, rfl⟩ := part
            simp
          obtain ⟨value, there, isValue⟩ := eval_getElem?_of_evalAll evaluated found
          have within : row.length ≤ row.length + taken.length := Nat.le_add_right ..
          simp [eval.eq_1, placed, isValue, there, List.getElem?_append_right within]
      · next notSelected =>
          rw [if_neg notSelected] at inside part
          cases function with
          | table function => simp [eval]
          | scalar function =>
              have sameArguments :=
                evalAll_extractAll placed evaluated taken operands inside part
              simp [eval, sameArguments]

/-- What is left of a list of expressions has the values of the expressions. -/
theorem evalAll_extractAll {extraction : Extraction} {row : Row} {calls : List Expr}
    {values : List Value} (placed : ∀ position, extraction.place position = row.length + position)
    (evaluated : evalAll row calls = .ok values) (taken : List Expr) :
    (expressions : List Expr) →
    (∀ index ∈ exposedAll extraction.selects expressions, index < row.length) →
    taken ++ outermostAll extraction.selects expressions <+: calls →
      evalAll (row ++ values) (extraction.extractAll taken expressions).1 =
        evalAll row expressions
  | [], _, _ => rfl
  | expression :: rest, inside, part => by
      simp only [exposedAll, List.mem_append] at inside
      rw [outermostAll, ← List.append_assoc] at part
      have first := eval_extract placed evaluated taken expression
        (fun index member => inside index (.inl member))
        ((List.prefix_append _ _).trans part)
      have later := evalAll_extractAll placed evaluated (extraction.extract taken expression).2 rest
        (fun index member => inside index (.inr member)) (by simpa using part)
      simp only [extractAll, evalAll, first, later]

end

/-- A number below a sum is below the first summand, or the first summand and a number below the
second one. -/
theorem exists_lt_add {holds : Nat → Prop} {first second : Nat} :
    (∃ number < first + second, holds number) ↔
      (∃ number < first, holds number) ∨ ∃ number < second, holds (first + number) := by
  constructor
  · rintro ⟨number, bound, holds⟩
    by_cases below : number < first
    · exact .inl ⟨number, below, holds⟩
    · exact .inr ⟨number - first, by omega, by rwa [Nat.add_sub_cancel' (by omega)]⟩
  · rintro (⟨number, bound, holds⟩ | ⟨number, bound, holds⟩)
    · exact ⟨number, by omega, holds⟩
    · exact ⟨first + number, by omega, holds⟩

mutual

/-- What is left of an expression refers to what the expression refers to outside of the selected
calls, and to the places of the extracted calls. -/
theorem mem_references_extract_iff (extraction : Extraction) (index : Nat) (taken : List Expr) :
    (expression : Expr) →
    (index ∈ (extraction.extract taken expression).1.references ↔
      index ∈ exposed extraction.selects expression ∨
        ∃ position < (outermost extraction.selects expression).length,
          index = extraction.place (taken.length + position))
  | .ref .. => by simp [extract, exposed, outermost]
  | .const .. => by simp [extract, exposed, outermost]
  | .call function operands type => by
      have below := mem_references_extractAll_iff extraction index taken operands
      unfold extract exposed outermost
      split
      · simp
      · simpa using below

/-- The same for a list of expressions. -/
theorem mem_references_extractAll_iff (extraction : Extraction) (index : Nat)
    (taken : List Expr) : (expressions : List Expr) →
    (index ∈ (extraction.extractAll taken expressions).1.flatMap references ↔
      index ∈ exposedAll extraction.selects expressions ∨
        ∃ position < (outermostAll extraction.selects expressions).length,
          index = extraction.place (taken.length + position))
  | [] => by simp [extractAll, exposedAll, outermostAll]
  | expression :: rest => by
      have first := mem_references_extract_iff extraction index taken expression
      have later := mem_references_extractAll_iff extraction index
        (taken ++ outermost extraction.selects expression) rest
      simp only [extractAll, List.flatMap_cons, List.mem_append, extract_snd, first, later,
        exposedAll, outermostAll, List.length_append, exists_lt_add, Nat.add_assoc]
      grind

end

mutual

/-- No call of an extracted dialect is left of an expression. -/
theorem hasCallOf_extract {extraction : Extraction} {dialect : Dialect}
    (selected : extraction.selects = isCallOf dialect) (taken : List Expr) :
    (expression : Expr) → (extraction.extract taken expression).1.hasCallOf dialect = false
  | .ref .. => rfl
  | .const .. => rfl
  | .call function operands type => by
      have below := anyHasCallOf_extractAll selected taken operands
      unfold extract
      split
      · rfl
      · next notSelected =>
          rw [selected] at notSelected
          simpa [hasCallOf, isCallOf, below] using notSelected

/-- No call of an extracted dialect is left of a list of expressions. -/
theorem anyHasCallOf_extractAll {extraction : Extraction} {dialect : Dialect}
    (selected : extraction.selects = isCallOf dialect) (taken : List Expr) :
    (expressions : List Expr) →
      anyHasCallOf dialect (extraction.extractAll taken expressions).1 = false
  | [] => rfl
  | expression :: rest => by
      have first := hasCallOf_extract selected taken expression
      have later :=
        anyHasCallOf_extractAll selected (taken ++ outermost extraction.selects expression) rest
      simp [extractAll, anyHasCallOf, first, later]

end

end Lateral.Extraction
