import Lateral.Function.Scalar
import Lateral.Proofs.Expr.Substitution

/-!
# Strictness

Evaluation looks at every node: an expression has a value only if each of its nodes has
one (`exists_eval_of_mem_nodes`). So no reference of an expression with a value dangles,
and the fields that are put in for its references have values as well
(`exists_eval_of_substitute`). Together with `eval_substitute` this tells how an expression
ends on a row of computed fields, whether or not something can be put in for its
references (`eval_on_fields`).
-/

namespace Lateral.Expr

variable {fields : List Expr} {row : Row}

/-- A call of a scalar function has the value that the function gives for those of the operands. -/
theorem eval_scalar_eq_ok_iff {function : ScalarFunction} {operands : List Expr} {type : DataType}
    {value : Value} :
    eval row (.call (.scalar function) operands type) = .ok value ↔
      ∃ arguments, evalAll row operands = .ok arguments ∧ function.invoke arguments = .ok value := by
  cases evaluated : evalAll row operands <;> simp [eval, evaluated]

mutual

/-- Where an expression has a value, each of its nodes has one. -/
theorem exists_eval_of_mem_nodes {node : Expr} : (expression : Expr) → {value : Value} →
    eval row expression = .ok value → node ∈ expression.nodes →
      ∃ result, eval row node = .ok result
  | .ref .., value, evaluated, member => by
      obtain rfl := List.mem_singleton.mp member
      exact ⟨value, evaluated⟩
  | .const .., value, evaluated, member => by
      obtain rfl := List.mem_singleton.mp member
      exact ⟨value, evaluated⟩
  | .call (.table _) .., _, evaluated, _ => by cases evaluated
  | .call (.scalar function) operands type, value, evaluated, member => by
      rcases List.mem_cons.mp member with rfl | below
      · exact ⟨value, evaluated⟩
      · obtain ⟨arguments, operandsEvaluated, -⟩ := eval_scalar_eq_ok_iff.mp evaluated
        exact exists_eval_of_mem_nodesAll operands operandsEvaluated below

/-- The same for a list of expressions. -/
theorem exists_eval_of_mem_nodesAll {node : Expr} : (expressions : List Expr) →
    {values : List Value} → evalAll row expressions = .ok values → node ∈ nodesAll expressions →
      ∃ result, eval row node = .ok result
  | [], _, _, member => by cases member
  | expression :: rest, values, evaluated, member => by
      obtain ⟨value, others, first, later, -⟩ := evalAll_cons_eq_ok_iff.mp evaluated
      rcases List.mem_append.mp member with inFirst | inRest
      · exact exists_eval_of_mem_nodes expression first inFirst
      · exact exists_eval_of_mem_nodesAll rest later inRest

end

/-- The references of an expression with a value lie within the row. -/
theorem lt_of_eval {expression : Expr} {value : Value} (evaluated : eval row expression = .ok value) :
    ∀ index ∈ expression.references, index < row.length := by
  intro index reference
  obtain ⟨node, member, isReference⟩ := List.mem_filterMap.mp reference
  obtain ⟨result, nodeEvaluated⟩ := exists_eval_of_mem_nodes expression evaluated member
  cases node with
  | ref place type =>
      obtain rfl : place = index := by simpa [referenced?] using isReference
      by_contra behind
      simp [eval, behind] at nodeEvaluated
  | const value type => cases isReference
  | call function operands type => cases isReference

mutual

/-- What is put in for a reference is a node of the result. -/
theorem exists_mem_nodes_of_substitute {index : Nat} : (expression : Expr) → {result : Expr} →
    substitute fields expression = .ok result → index ∈ expression.references →
      ∃ field ∈ result.nodes, fields[index]? = some field
  | .ref place type, result, substituted, reference => by
      obtain rfl : index = place := by simpa using reference
      exact ⟨result, result.mem_nodes_self, substitute_ref_eq_ok_iff.mp substituted⟩
  | .const .., _, _, reference => by simp at reference
  | .call function operands type, result, substituted, reference => by
      obtain ⟨others, inOperands, rfl⟩ := substitute_call_eq_ok_iff.mp substituted
      rw [references_call] at reference
      obtain ⟨operand, member, field, inside, found⟩ :=
        exists_mem_nodes_of_substituteAll operands inOperands reference
      exact ⟨field, mem_nodes_call_of_operand member inside, found⟩

/-- The same for a list of expressions: it is a node of one of the results. -/
theorem exists_mem_nodes_of_substituteAll {index : Nat} : (expressions : List Expr) →
    {results : List Expr} → substituteAll fields expressions = .ok results →
    index ∈ expressions.flatMap references →
      ∃ result ∈ results, ∃ field ∈ result.nodes, fields[index]? = some field
  | [], _, _, reference => by simp at reference
  | expression :: rest, results, substituted, reference => by
      obtain ⟨result, others, first, later, rfl⟩ := substituteAll_cons_eq_ok_iff.mp substituted
      rw [List.flatMap_cons] at reference
      rcases List.mem_append.mp reference with inFirst | inRest
      · obtain ⟨field, inside, found⟩ := exists_mem_nodes_of_substitute expression first inFirst
        exact ⟨result, List.mem_cons_self, field, inside, found⟩
      · obtain ⟨other, member, field, inside, found⟩ :=
          exists_mem_nodes_of_substituteAll rest later inRest
        exact ⟨other, List.mem_cons_of_mem _ member, field, inside, found⟩

end

/-- Where an expression with fields put in has a value, the field of each of its references has
one. -/
theorem exists_eval_of_substitute {expression result : Expr} {value : Value}
    (substituted : substitute fields expression = .ok result)
    (evaluated : eval row result = .ok value) {index : Nat}
    (reference : index ∈ expression.references) {field : Expr} (found : fields[index]? = some field) :
    ∃ value, eval row field = .ok value := by
  obtain ⟨other, inside, otherFound⟩ :=
    exists_mem_nodes_of_substitute expression substituted reference
  obtain rfl : field = other := Option.some.inj (found.symm.trans otherFound)
  exact exists_eval_of_mem_nodes result evaluated inside

/-- Where the fields have values on a row, an expression with the fields put in has on that row the
outcome of the expression on the row of the values, be it a value or an error. Where a field is
missing for one of its references, so is a value, and the expression fails on the row of the
values. -/
theorem eval_on_fields {values : List Value} (evaluated : evalAll row fields = .ok values)
    (expression : Expr) :
    (∀ result, substitute fields expression = .ok result →
        eval row result = eval values expression) ∧
      ∀ error, substitute fields expression = .error error →
        ∃ failure, eval values expression = .error failure := by
  constructor
  · intro result substituted
    exact eval_substitute evaluated expression substituted
  · intro error missing
    cases ended : eval values expression with
    | error failure => exact ⟨failure, rfl⟩
    | ok value =>
        have inside : ∀ index ∈ expression.references, index < fields.length := by
          rw [← length_of_evalAll evaluated]
          exact lt_of_eval ended
        obtain ⟨result, substituted⟩ := exists_substitute expression inside
        rw [substituted] at missing
        cases missing

/-- The fields `ABS($0)` and `$1`. -/
def absFields : List Expr :=
  [absOf (.ref 0 .int), .ref 1 .string]

/-- On the fields `7` and `a`, `CONCAT($1, $0, $1)` has a value, `CONCAT($1, TO_UPPER($0))` fails since
`7` is no text, and `$2` is missing; with the fields put in it is the same. -/
theorem eval_on_fields_absFields :
    eval [.int (-7), .string "a"]
        (concatOf [.ref 1 .string, absOf (.ref 0 .int), .ref 1 .string]) =
      .ok (.string "a7a") ∧
    eval [.int (-7), .string "a"]
        (concatOf [.ref 1 .string, upperOf (absOf (.ref 0 .int))]) =
      .error (.call "TO_UPPER" (.unmet .stringArgument)) ∧
    ∃ failure, eval [.int 7, .string "a"] (.ref 2 .int) = .error failure := by
  have evaluated : evalAll [.int (-7), .string "a"] absFields = .ok [.int 7, .string "a"] := rfl
  have inConcat : substitute absFields (concatOf [.ref 1 .string, .ref 0 .int, .ref 1 .string]) =
      .ok (concatOf [.ref 1 .string, absOf (.ref 0 .int), .ref 1 .string]) := rfl
  have inUpper : substitute absFields (concatOf [.ref 1 .string, upperOf (.ref 0 .int)]) =
      .ok (concatOf [.ref 1 .string, upperOf (absOf (.ref 0 .int))]) := rfl
  have missing : substitute absFields (.ref 2 .int) = .error (.uncoveredReference 2 2) := rfl
  refine ⟨?_, ?_, (eval_on_fields evaluated _).2 _ missing⟩
  · exact (eval_on_fields evaluated _).1 _ inConcat
  · exact (eval_on_fields evaluated _).1 _ inUpper

end Lateral.Expr
