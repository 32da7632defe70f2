import Lateral.Proofs.Expr.Substitution

/-!
# Substitution after substitution

Something can be put in for all references of an expression exactly when they lie within the
fields (`exists_substitute_iff`). Fields that were themselves substituted in may be put in at
once: that is to put in the fields first and to substitute in the result afterwards, failures
included (`substitute_bind`).
-/

namespace Lateral.Expr

variable {fields : List Expr}

mutual

/-- An expression that something is put in for has no reference behind the last field. -/
theorem lt_of_substitute : (expression : Expr) → {result : Expr} →
    substitute fields expression = .ok result →
      ∀ index ∈ expression.references, index < fields.length
  | .ref index type, result, substituted => by
      obtain ⟨below, -⟩ := List.getElem?_eq_some_iff.mp (substitute_ref_eq_ok_iff.mp substituted)
      simpa using below
  | .const value type, result, substituted => by simp
  | .call function operands type, result, substituted => by
      obtain ⟨others, inOperands, -⟩ := substitute_call_eq_ok_iff.mp substituted
      simpa using lt_of_substituteAll operands inOperands

/-- The same for a list of expressions. -/
theorem lt_of_substituteAll : (expressions : List Expr) → {results : List Expr} →
    substituteAll fields expressions = .ok results →
      ∀ index ∈ expressions.flatMap references, index < fields.length
  | [], results, substituted => by simp
  | expression :: rest, results, substituted => by
      obtain ⟨result, others, first, later, -⟩ := substituteAll_cons_eq_ok_iff.mp substituted
      rw [List.flatMap_cons, List.forall_mem_append]
      exact ⟨lt_of_substitute expression first, lt_of_substituteAll rest later⟩

end

/-- Something can be put in exactly for expressions whose references lie within the fields. -/
theorem exists_substitute_iff {expression : Expr} :
    (∃ result, substitute fields expression = .ok result) ↔
      ∀ index ∈ expression.references, index < fields.length :=
  ⟨fun ⟨_, substituted⟩ => lt_of_substitute expression substituted,
    exists_substitute expression⟩

/-- Substitution in a call, with what becomes of a failure. -/
theorem substitute_call (function : Function) (operands : List Expr) (type : DataType) :
    substitute fields (.call function operands type) =
      (substituteAll fields operands).map (.call function · type) := by
  rw [substitute]
  cases substituteAll fields operands <;> rfl

/-- Substitution in a list, with what becomes of a failure. -/
theorem substituteAll_cons (expression : Expr) (rest : List Expr) :
    substituteAll fields (expression :: rest) =
      (substitute fields expression).bind fun result =>
        (substituteAll fields rest).map (result :: ·) := by
  rw [substituteAll]
  cases substitute fields expression <;> cases substituteAll fields rest <;> rfl

/-- A field that was substituted in stands at its place. -/
theorem substitute_of_getElem? {below composed : List Expr}
    (composes : substituteAll below fields = .ok composed) {index : Nat} {field : Expr}
    (found : fields[index]? = some field) :
    ∃ result, composed[index]? = some result ∧ substitute below field = .ok result :=
  exists_getElem?_of_forall₂ (substituteAll_eq_ok_iff.mp composes) found

/-- Where fields are put in that can be substituted in, the result can be substituted in. -/
theorem exists_substitute_of_composes {below composed : List Expr}
    (composes : substituteAll below fields = .ok composed) {expression result : Expr}
    (substituted : substitute fields expression = .ok result) :
    ∃ final, substitute below result = .ok final := by
  refine exists_substitute result fun index inside => ?_
  have single : substituteAll fields [expression] = .ok [result] :=
    substituteAll_cons_eq_ok_iff.mpr ⟨result, [], substituted, rfl, rfl⟩
  obtain ⟨field, isField, inField⟩ :=
    exists_mem_of_mem_references_substituteAll single (List.mem_singleton_self result) inside
  exact lt_of_substituteAll fields composes index (List.mem_flatMap.mpr ⟨field, isField, inField⟩)

mutual

/-- To put in fields that were substituted in is to put in the fields and to substitute in the
result, and it fails for the same reference. -/
theorem substitute_bind {below composed : List Expr}
    (composes : substituteAll below fields = .ok composed) : (expression : Expr) →
      (substitute fields expression).bind (substitute below) = substitute composed expression
  | .ref index type => by
      have sameCount := length_of_substituteAll composes
      cases found : fields[index]? with
      | none =>
          have missing : composed[index]? = none := by
            simpa [sameCount] using found
          simp [substitute, found, missing, sameCount, Except.bind]
      | some field =>
          obtain ⟨result, isResult, substituted⟩ := substitute_of_getElem? composes found
          simp [substitute, found, isResult, substituted, Except.bind]
  | .const value type => rfl
  | .call function operands type => by
      rw [substitute_call, substitute_call, ← substituteAll_bind composes operands]
      cases substituteAll fields operands with
      | error error => rfl
      | ok others => exact substitute_call function others type

/-- The same for a list of expressions. -/
theorem substituteAll_bind {below composed : List Expr}
    (composes : substituteAll below fields = .ok composed) : (expressions : List Expr) →
      (substituteAll fields expressions).bind (substituteAll below) =
        substituteAll composed expressions
  | [] => rfl
  | expression :: rest => by
      rw [substituteAll_cons, substituteAll_cons, ← substitute_bind composes expression,
        ← substituteAll_bind composes rest]
      cases first : substitute fields expression with
      | error error => rfl
      | ok result =>
          cases substituteAll fields rest with
          | error error =>
              -- The failure of the rest counts, as the first result can be substituted in.
              obtain ⟨final, substituted⟩ := exists_substitute_of_composes composes first
              simp [Except.bind, Except.map, substituted]
          | ok others => exact substituteAll_cons result others

end

end Lateral.Expr
