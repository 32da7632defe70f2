import Lateral.Proofs.Expr.Placeholders
import Lateral.Proofs.Expr.Substitution

/-!
# Extraction undone

Substitution puts extracted calls back: of what extraction leaves of an expression,
substitution of the fields of the row, with the extracted calls behind them, makes the
expression again (`restores_extract`). Only the types that references declare may differ,
since a reference to a field of the row is put in with the type of the field
(`withoutFieldTypes`).
-/

namespace Lateral.Expr

mutual

/-- An expression with one and the same type declared by all its references. -/
def withoutFieldTypes : Expr → Expr
  | .ref index _ => .ref index .null
  | .const value type => .const value type
  | .call function operands type => .call function (withoutFieldTypesAll operands) type

/-- The same for a list of expressions. -/
def withoutFieldTypesAll : List Expr → List Expr
  | [] => []
  | expression :: rest => expression.withoutFieldTypes :: withoutFieldTypesAll rest

end

/-- Substitution of the fields makes the original of an expression, up to the types that references
declare. -/
def Restores (fields : List Expr) (left original : Expr) : Prop :=
  ∃ restored, left.substitute fields = .ok restored ∧
    restored.withoutFieldTypes = original.withoutFieldTypes

variable {fields : List Expr}

/-- What substitution makes of each expression of a list it makes of the list. -/
theorem exists_substituteAll_of_restores {lefts originals : List Expr}
    (each : List.Forall₂ (Restores fields) lefts originals) :
    ∃ restored, substituteAll fields lefts = .ok restored ∧
      withoutFieldTypesAll restored = withoutFieldTypesAll originals := by
  induction each with
  | nil => exact ⟨[], rfl, rfl⟩
  | cons first rest inductionHypothesis =>
      obtain ⟨restored, substituted, same⟩ := first
      obtain ⟨others, othersSubstituted, othersSame⟩ := inductionHypothesis
      exact ⟨restored :: others,
        substituteAll_cons_eq_ok_iff.mpr ⟨_, _, substituted, othersSubstituted, rfl⟩,
        by rw [withoutFieldTypesAll, withoutFieldTypesAll, same, othersSame]⟩

/-- A call is restored when its operands are. -/
theorem Restores.call (function : Function) (type : DataType) {lefts originals : List Expr}
    (each : List.Forall₂ (Restores fields) lefts originals) :
    Restores fields (.call function lefts type) (.call function originals type) := by
  obtain ⟨restored, substituted, same⟩ := exists_substituteAll_of_restores each
  exact ⟨.call function restored type, substitute_call_eq_ok_iff.mpr ⟨restored, substituted, rfl⟩,
    by rw [withoutFieldTypes, withoutFieldTypes, same]⟩

/-- A reference to a field of the row is restored by the fields of the row. -/
theorem Restores.ref_of_lt {row : Schema} {index : Nat} (inRow : index < row.length)
    (type : DataType) (calls : List Expr) :
    Restores (fieldRefs row ++ calls) (.ref index type) (.ref index type) := by
  refine ⟨.ref index row[index].type, substitute_ref_eq_ok_iff.mpr ?_, rfl⟩
  rw [List.getElem?_append_left (by simpa using inRow), getElem?_fieldRefs,
    List.getElem?_eq_getElem inRow, Option.map_some]

/-- A reference behind the row is restored to the call at its position. -/
theorem Restores.ref_behind {row : Schema} {calls : List Expr} {position : Nat} {call : Expr}
    (found : calls[position]? = some call) (type : DataType) :
    Restores (fieldRefs row ++ calls) (.ref (row.length + position) type) call := by
  refine ⟨call, substitute_ref_eq_ok_iff.mpr ?_, rfl⟩
  rw [List.getElem?_append_right (by simp)]
  simpa using found

end Lateral.Expr

namespace Lateral.Extraction

open Lateral.Expr

mutual

/-- What is left of an expression is restored by the fields of the row with the extracted calls
behind them, if references are placed behind the row. -/
theorem restores_extract {extraction : Extraction} {row : Schema} {calls : List Expr}
    (placed : ∀ position, extraction.place position = row.length + position)
    (taken : List Expr) : (expression : Expr) →
    (∀ index ∈ exposed extraction.selects expression, index < row.length) →
    taken ++ outermost extraction.selects expression <+: calls →
      Restores (fieldRefs row ++ calls) (extraction.extract taken expression).1 expression
  | .ref index type, inside, _ => .ref_of_lt (inside index (by simp [exposed])) type calls
  | .const value type, _, _ => ⟨.const value type, rfl, rfl⟩
  | .call function operands type, inside, part => by
      unfold extract
      unfold exposed at inside
      unfold outermost at part
      split
      · next selected =>
          rw [if_pos selected] at part
          have found : calls[taken.length]? = some (.call function operands type) := by
            obtain ⟨rest, rfl⟩ := part
            simp
          rw [placed]
          exact .ref_behind found type
      · next notSelected =>
          rw [if_neg notSelected] at inside part
          exact .call function type (restores_extractAll placed taken operands inside part)

/-- The same for each expression of a list. -/
theorem restores_extractAll {extraction : Extraction} {row : Schema} {calls : List Expr}
    (placed : ∀ position, extraction.place position = row.length + position)
    (taken : List Expr) : (expressions : List Expr) →
    (∀ index ∈ exposedAll extraction.selects expressions, index < row.length) →
    taken ++ outermostAll extraction.selects expressions <+: calls →
      List.Forall₂ (Restores (fieldRefs row ++ calls))
        (extraction.extractAll taken expressions).1 expressions
  | [], _, _ => .nil
  | expression :: rest, inside, part => by
      simp only [exposedAll, List.forall_mem_append] at inside
      rw [outermostAll, ← List.append_assoc] at part
      have first := restores_extract placed taken expression inside.1
        ((List.prefix_append _ _).trans part)
      have later := restores_extractAll placed (extraction.extract taken expression).2 rest
        inside.2 (by simpa using part)
      exact .cons first later

end

/-- Extraction from a list of expressions that stay within a row is undone by substitution, if the
indices behind the row do not start again at zero: the fields of the row with the extracted calls
behind them, put in for the references of what is left of an expression, make the expression again,
up to the types that references declare. -/
theorem extractAll_restores {offset : UInt64} {dialect : Dialect} {row : Schema}
    {expressions freed calls : List Expr} (width : row.length = offset.toNat)
    (inside : ∀ index ∈ expressions.flatMap references, index < offset.toNat)
    (extracted : (fromOffset offset dialect).extractAll [] expressions = (freed, calls))
    (fits : offset.toNat + calls.length < UInt64.size) :
    List.Forall₂ (fun left original => ∃ restored,
        left.substitute (fieldRefs row ++ calls) = .ok restored ∧
          restored.withoutFieldTypes = original.withoutFieldTypes) freed expressions := by
  obtain rfl : outermostAll (isCallOf dialect) expressions = calls :=
    outermostAll_eq_of_extractAll extracted
  rw [← width] at inside
  have placed : ∀ position, (behind offset.toNat dialect).place position =
      row.length + position := fun position => by rw [width, behind]
  have restores := restores_extractAll placed [] expressions (lt_of_mem_exposedAll inside)
    List.prefix_rfl
  rw [← extractAll_fromOffset (Nat.le_of_lt fits), extracted] at restores
  exact restores

/-- The fields `x` and `y` and the extracted calls put in, the expressions are back, with the type of
`y` declared by `$1` in the first of them. -/
theorem extractAll_restores_mixedExprs :
    List.Forall₂ (fun left original : Expr => ∃ restored,
        left.substitute (fieldRefs [⟨"x", .int⟩, ⟨"y", .int⟩] ++ mixedCalls) = .ok restored ∧
          restored.withoutFieldTypes = original.withoutFieldTypes) mixedRest mixedExprs := by
  have width : [⟨"x", .int⟩, (⟨"y", .int⟩ : Field)].length = (2 : UInt64).toNat := rfl
  have inside : ∀ index ∈ mixedExprs.flatMap references, index < (2 : UInt64).toNat := by decide
  have extracted : (fromOffset 2 .python).extractAll [] mixedExprs = (mixedRest, mixedCalls) := rfl
  exact extractAll_restores width inside extracted (by decide)

end Lateral.Extraction
