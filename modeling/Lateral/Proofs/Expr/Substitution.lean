import Lateral.Expr.Substitute
import Lateral.Proofs.Expr.Evaluation

/-!
# Substitution and evaluation

An expression with computed fields put in place of its references has, on a row,
the outcome of the expression on the row of these fields (`eval_substitute`). It
refers to what the fields refer to that are put in (`references_substitute`).
-/

namespace Lateral.Expr

variable {fields : List Expr}

theorem substituteAll_cons_eq_ok_iff {expression : Expr} {rest results : List Expr} :
    substituteAll fields (expression :: rest) = .ok results ↔
      ∃ result others, substitute fields expression = .ok result ∧
        substituteAll fields rest = .ok others ∧ results = result :: others := by
  cases first : substitute fields expression <;> cases later : substituteAll fields rest <;>
    simp [substituteAll, first, later, eq_comm]

/-- Substitution in a call is substitution in its operands. -/
theorem substitute_call_eq_ok_iff {function : Function} {operands : List Expr} {type : DataType}
    {result : Expr} :
    substitute fields (.call function operands type) = .ok result ↔
      ∃ others, substituteAll fields operands = .ok others ∧
        result = .call function others type := by
  cases substituted : substituteAll fields operands <;> simp [substitute, substituted, eq_comm]

/-- A reference becomes the field at its index. -/
theorem substitute_ref_eq_ok_iff {index : Nat} {type : DataType} {result : Expr} :
    substitute fields (.ref index type) = .ok result ↔ fields[index]? = some result := by
  cases found : fields[index]? <;> simp [substitute, found]

/-- Substitution in a list of expressions works place by place. -/
theorem substituteAll_eq_ok_iff {expressions results : List Expr} :
    substituteAll fields expressions = .ok results ↔
      List.Forall₂ (fun expression result => substitute fields expression = .ok result)
        expressions results := by
  induction expressions generalizing results with
  | nil => simp [substituteAll, eq_comm]
  | cons expression rest inductionHypothesis =>
      rw [substituteAll_cons_eq_ok_iff, List.forall₂_cons_left_iff]
      simp only [inductionHypothesis, exists_and_left]

/-- There is one result for each expression. -/
theorem length_of_substituteAll {expressions results : List Expr}
    (substituted : substituteAll fields expressions = .ok results) :
    results.length = expressions.length :=
  (substituteAll_eq_ok_iff.mp substituted).length_eq.symm

mutual

/-- Computing the fields first and the expression on them comes to the same as computing the
expression with the fields put in, failures included. -/
theorem eval_substitute {row : Row} {values : List Value}
    (evaluated : evalAll row fields = .ok values) : (expression : Expr) → {result : Expr} →
      substitute fields expression = .ok result → eval row result = eval values expression
  | .ref index type, result, substituted => by
      have found := substitute_ref_eq_ok_iff.mp substituted
      obtain ⟨value, isValue, there⟩ := eval_getElem?_of_evalAll evaluated found
      simp [eval.eq_1, isValue, there]
  | .const value type, result, substituted => by
      obtain rfl : .const value type = result := by simpa [substitute] using substituted
      simp [eval]
  | .call (.table function) operands type, result, substituted => by
      obtain ⟨others, -, rfl⟩ := substitute_call_eq_ok_iff.mp substituted
      simp [eval]
  | .call (.scalar function) operands type, result, substituted => by
      obtain ⟨others, inOperands, rfl⟩ := substitute_call_eq_ok_iff.mp substituted
      have sameArguments := evalAll_substituteAll evaluated operands inOperands
      simp [eval, sameArguments]

/-- The same for a list of expressions. -/
theorem evalAll_substituteAll {row : Row} {values : List Value}
    (evaluated : evalAll row fields = .ok values) : (expressions : List Expr) →
      {results : List Expr} → substituteAll fields expressions = .ok results →
        evalAll row results = evalAll values expressions
  | [], results, substituted => by
      obtain rfl : [] = results := by simpa [substituteAll] using substituted
      simp [evalAll]
  | expression :: rest, results, substituted => by
      obtain ⟨result, others, first, later, rfl⟩ := substituteAll_cons_eq_ok_iff.mp substituted
      have sameFirst := eval_substitute evaluated expression first
      have sameRest := evalAll_substituteAll evaluated rest later
      simp [evalAll, sameFirst, sameRest]

end

mutual

/-- Something can be put in for every reference that lies within the fields. -/
theorem exists_substitute : (expression : Expr) →
    (∀ index ∈ expression.references, index < fields.length) →
      ∃ result, substitute fields expression = .ok result
  | .ref index type, inside => by
      have below : index < fields.length := inside index (by simp)
      exact ⟨fields[index], substitute_ref_eq_ok_iff.mpr (List.getElem?_eq_getElem below)⟩
  | .const value type, _ => ⟨.const value type, rfl⟩
  | .call function operands type, inside => by
      obtain ⟨others, inOperands⟩ := exists_substituteAll operands (by simpa using inside)
      exact ⟨_, substitute_call_eq_ok_iff.mpr ⟨others, inOperands, rfl⟩⟩

/-- The same for a list of expressions. -/
theorem exists_substituteAll : (expressions : List Expr) →
    (∀ index ∈ expressions.flatMap references, index < fields.length) →
      ∃ results, substituteAll fields expressions = .ok results
  | [], _ => ⟨[], rfl⟩
  | expression :: rest, inside => by
      simp only [List.flatMap_cons, List.mem_append, or_imp, forall_and] at inside
      obtain ⟨result, first⟩ := exists_substitute expression inside.1
      obtain ⟨others, later⟩ := exists_substituteAll rest inside.2
      exact ⟨result :: others, substituteAll_cons_eq_ok_iff.mpr ⟨_, _, first, later, rfl⟩⟩

end

mutual

/-- A reference that nothing can be put in for violates an invariant of plans. -/
theorem kind_of_substitute_error {error : Error} : (expression : Expr) →
    substitute fields expression = .error error → error.kind = .planInvariantViolation
  | .ref index type, failed => by
      unfold substitute at failed
      split at failed
      · cases failed
      · obtain rfl := Except.error.inj failed
        rfl
  | .const value type, failed => by cases failed
  | .call function operands type, failed => by
      rw [substitute] at failed
      split at failed
      · cases failed
      · next inOperands =>
          obtain rfl := Except.error.inj failed
          exact kind_of_substituteAll_error operands inOperands

theorem kind_of_substituteAll_error {error : Error} : (expressions : List Expr) →
    substituteAll fields expressions = .error error → error.kind = .planInvariantViolation
  | [], failed => by cases failed
  | expression :: rest, failed => by
      rw [substituteAll] at failed
      split at failed
      · split at failed
        · cases failed
        · next inRest =>
            obtain rfl := Except.error.inj failed
            exact kind_of_substituteAll_error rest inRest
      · next inFirst =>
          obtain rfl := Except.error.inj failed
          exact kind_of_substitute_error expression inFirst

end

/-- The references of the field at an index, none behind the last field. -/
def referencesAt (fields : List Expr) (index : Nat) : List Nat :=
  (fields[index]?.map references).getD []

mutual

/-- The result of a substitution refers to what the fields refer to that were put in, in the
order of the references that they were put in for. -/
theorem references_substitute : (expression : Expr) → {result : Expr} →
    substitute fields expression = .ok result →
      result.references = expression.references.flatMap (referencesAt fields)
  | .ref index type, result, substituted => by
      have found := substitute_ref_eq_ok_iff.mp substituted
      simp [referencesAt, found]
  | .const value type, result, substituted => by
      obtain rfl : .const value type = result := by simpa [substitute] using substituted
      simp
  | .call function operands type, result, substituted => by
      obtain ⟨others, inOperands, rfl⟩ := substitute_call_eq_ok_iff.mp substituted
      simpa using flatMap_references_substituteAll operands inOperands

/-- The same for a list of expressions. -/
theorem flatMap_references_substituteAll : (expressions : List Expr) → {results : List Expr} →
    substituteAll fields expressions = .ok results →
      results.flatMap references =
        (expressions.flatMap references).flatMap (referencesAt fields)
  | [], results, substituted => by
      obtain rfl : [] = results := by simpa [substituteAll] using substituted
      simp
  | expression :: rest, results, substituted => by
      obtain ⟨result, others, first, later, rfl⟩ := substituteAll_cons_eq_ok_iff.mp substituted
      have ofFirst := references_substitute expression first
      have ofRest := flatMap_references_substituteAll rest later
      simp only [List.flatMap_cons, ofFirst, ofRest, List.flatMap_append]

end

/-- The references of a result stand in one of the fields. -/
theorem exists_mem_of_mem_references_substituteAll {expressions results : List Expr}
    (substituted : substituteAll fields expressions = .ok results) {result : Expr}
    (member : result ∈ results) {index : Nat} (inside : index ∈ result.references) :
    ∃ field ∈ fields, index ∈ field.references := by
  have all : index ∈ results.flatMap references := List.mem_flatMap.mpr ⟨result, member, inside⟩
  rw [flatMap_references_substituteAll expressions substituted, List.mem_flatMap] at all
  obtain ⟨place, -, atPlace⟩ := all
  unfold referencesAt at atPlace
  cases found : fields[place]? with
  | none => simp [found] at atPlace
  | some field => exact ⟨field, List.mem_of_getElem? found, by simpa [found] using atPlace⟩

end Lateral.Expr
