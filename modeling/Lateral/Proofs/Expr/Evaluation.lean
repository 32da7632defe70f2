import Mathlib.Data.List.Forall2
import Lateral.Expr.Eval
import Lateral.Function.Scalar

/-!
# What evaluation reads

The value of an expression depends on the fields that it refers to and on nothing
else of a row (`eval_congr`), so fields behind the row that an expression was
written for change nothing (`evalAll_append_right`). Lists of expressions are
evaluated place by place (`evalAll_eq_ok_iff`).
-/

namespace Lateral.Expr

@[simp] theorem references_ref (index : Nat) (type : DataType) :
    (Expr.ref index type).references = [index] :=
  rfl

@[simp] theorem references_const (value : Value) (type : DataType) :
    (Expr.const value type).references = [] :=
  rfl

/-- A call refers to what its operands refer to, in their order. -/
@[simp] theorem references_call (function : Function) (operands : List Expr) (type : DataType) :
    (Expr.call function operands type).references = operands.flatMap references := by
  unfold references
  rw [nodes, nodesAll_eq_flatMap, List.filterMap_cons_none rfl, List.filterMap_flatMap]

/-- Both rows have a field at the index, and the fields have the same value. -/
def AgreeAt (row other : Row) (index : Nat) : Prop :=
  ∃ value, row[index]? = some value ∧ other[index]? = some value

mutual

/-- An expression has the same value, or fails in the same way, on rows that agree at the
fields it refers to. -/
theorem eval_congr {row other : Row} : (expression : Expr) →
    (∀ index ∈ expression.references, AgreeAt row other index) →
      eval row expression = eval other expression
  | .ref index type, agree => by
      obtain ⟨value, here, there⟩ := agree index (by simp)
      simp [eval, here, there]
  | .const value type, _ => rfl
  | .call (.table function) operands type, _ => rfl
  | .call (.scalar function) operands type, agree => by
      have sameArguments := evalAll_congr operands fun operand member index inside =>
        agree index (by simpa using ⟨operand, member, inside⟩)
      simp [eval, sameArguments]

/-- A list of expressions has the same values, or fails in the same way, on rows that agree at
the fields it refers to. -/
theorem evalAll_congr {row other : Row} : (expressions : List Expr) →
    (∀ expression ∈ expressions, ∀ index ∈ expression.references, AgreeAt row other index) →
      evalAll row expressions = evalAll other expressions
  | [], _ => rfl
  | expression :: rest, agree => by
      have sameFirst := eval_congr expression (agree expression List.mem_cons_self)
      have sameRest := evalAll_congr rest fun other member =>
        agree other (List.mem_cons_of_mem _ member)
      simp [evalAll, sameFirst, sameRest]

end

/-- A row agrees with its extensions at each of its own fields. -/
theorem agreeAt_append {row : Row} (extra : Row) {index : Nat} (inside : index < row.length) :
    AgreeAt (row ++ extra) row index :=
  ⟨row[index], by simp [List.getElem?_append_left inside], by simp [inside]⟩

/-- Fields behind a row change nothing for an expression that stays within the row. -/
theorem eval_append_right {row : Row} {expression : Expr} (extra : Row)
    (inside : ∀ index ∈ expression.references, index < row.length) :
    eval (row ++ extra) expression = eval row expression :=
  eval_congr expression fun index member => agreeAt_append extra (inside index member)

theorem evalAll_cons_eq_ok_iff {row : Row} {expression : Expr} {rest : List Expr}
    {values : List Value} :
    evalAll row (expression :: rest) = .ok values ↔
      ∃ value others, eval row expression = .ok value ∧ evalAll row rest = .ok others ∧
        values = value :: others := by
  cases first : eval row expression <;> cases later : evalAll row rest <;>
    simp [evalAll, first, later, eq_comm]

/-- A list of expressions is evaluated place by place. -/
theorem evalAll_eq_ok_iff {row : Row} {expressions : List Expr} {values : List Value} :
    evalAll row expressions = .ok values ↔
      List.Forall₂ (fun expression value => eval row expression = .ok value)
        expressions values := by
  induction expressions generalizing values with
  | nil => simp [evalAll, eq_comm]
  | cons expression rest inductionHypothesis =>
      rw [evalAll_cons_eq_ok_iff, List.forall₂_cons_left_iff]
      constructor
      · rintro ⟨value, others, first, later, rfl⟩
        exact ⟨value, others, first, inductionHypothesis.mp later, rfl⟩
      · rintro ⟨value, others, first, later, rfl⟩
        exact ⟨value, others, first, inductionHypothesis.mpr later, rfl⟩

/-- There is one value for each expression. -/
theorem length_of_evalAll {row : Row} {expressions : List Expr} {values : List Value}
    (evaluated : evalAll row expressions = .ok values) : values.length = expressions.length :=
  (evalAll_eq_ok_iff.mp evaluated).length_eq.symm

/-- The values of one list of expressions behind another. -/
theorem evalAll_append {row : Row} {front back : List Expr} {values others : List Value}
    (first : evalAll row front = .ok values) (later : evalAll row back = .ok others) :
    evalAll row (front ++ back) = .ok (values ++ others) :=
  evalAll_eq_ok_iff.mpr <|
    List.rel_append (evalAll_eq_ok_iff.mp first) (evalAll_eq_ok_iff.mp later)

/-- The values of two lists of expressions can be told apart. -/
theorem exists_of_evalAll_append {row : Row} {front back : List Expr} {values : List Value}
    (evaluated : evalAll row (front ++ back) = .ok values) :
    ∃ first later, evalAll row front = .ok first ∧ evalAll row back = .ok later ∧
      values = first ++ later := by
  have places := evalAll_eq_ok_iff.mp evaluated
  refine ⟨values.take front.length, values.drop front.length, ?_, ?_, by simp⟩
  · simpa using evalAll_eq_ok_iff.mpr (List.forall₂_take front.length places)
  · simpa using evalAll_eq_ok_iff.mpr (List.forall₂_drop front.length places)

/-- Lists that correspond place by place have corresponding entries at each place. -/
theorem exists_getElem?_of_forall₂ {α β : Type} {corresponds : α → β → Prop} {entries : List α}
    {others : List β} (places : List.Forall₂ corresponds entries others) {index : Nat} {entry : α}
    (found : entries[index]? = some entry) :
    ∃ other, others[index]? = some other ∧ corresponds entry other := by
  obtain ⟨sameLength, each⟩ := List.forall₂_iff_get.mp places
  obtain ⟨inside, rfl⟩ := List.getElem?_eq_some_iff.mp found
  have within : index < others.length := sameLength ▸ inside
  exact ⟨others[index], by simp, each index inside within⟩

/-- Lists that correspond place by place have a corresponding entry for each entry. -/
theorem exists_mem_of_forall₂ {α β : Type} {corresponds : α → β → Prop} {entries : List α}
    {others : List β} (places : List.Forall₂ corresponds entries others) {entry : α}
    (member : entry ∈ entries) : ∃ other ∈ others, corresponds entry other := by
  obtain ⟨index, found⟩ := List.mem_iff_getElem?.mp member
  obtain ⟨other, isOther, corresponding⟩ := exists_getElem?_of_forall₂ places found
  exact ⟨other, List.mem_of_getElem? isOther, corresponding⟩

/-- The value of an expression stands at its place. -/
theorem eval_getElem?_of_evalAll {row : Row} {expressions : List Expr} {values : List Value}
    (evaluated : evalAll row expressions = .ok values) {index : Nat} {expression : Expr}
    (found : expressions[index]? = some expression) :
    ∃ value, values[index]? = some value ∧ eval row expression = .ok value :=
  exists_getElem?_of_forall₂ (evalAll_eq_ok_iff.mp evaluated) found

/-- A list of expressions that fails on a row has an expression in it that fails on the row. -/
theorem exists_getElem?_of_evalAll_error {row : Row} {expressions : List Expr} {error : Error}
    (failed : evalAll row expressions = .error error) :
    ∃ (index : Nat) (expression : Expr), expressions[index]? = some expression ∧
      eval row expression = .error error := by
  induction expressions with
  | nil => cases failed
  | cons expression rest inductionHypothesis =>
      rw [evalAll] at failed
      split at failed
      · split at failed
        · cases failed
        · next restFailed =>
            obtain rfl := Except.error.inj failed
            obtain ⟨index, other, found, otherFailed⟩ := inductionHypothesis restFailed
            exact ⟨index + 1, other, found, otherFailed⟩
      · next firstFailed =>
          obtain rfl := Except.error.inj failed
          exact ⟨0, expression, rfl, firstFailed⟩

theorem getElem?_fieldRefsFrom (start : Nat) (row : Schema) (index : Nat) :
    (fieldRefsFrom start row)[index]? = row[index]?.map fun field => .ref (start + index) field.type := by
  induction row generalizing start index with
  | nil => simp [fieldRefsFrom]
  | cons field rest inductionHypothesis =>
      cases index with
      | zero => simp [fieldRefsFrom]
      | succ index => simp [fieldRefsFrom, inductionHypothesis, Nat.add_assoc, Nat.add_comm 1]

/-- The reference to a field stands at the place of the field. -/
theorem getElem?_fieldRefs (row : Schema) (index : Nat) :
    (fieldRefs row)[index]? = row[index]?.map fun field => .ref index field.type := by
  simp [fieldRefs, getElem?_fieldRefsFrom]

/-- The references to the fields of a row lie within the row. -/
theorem lt_of_mem_fieldRefs {row : Schema} {expression : Expr} (member : expression ∈ fieldRefs row) :
    ∀ index ∈ expression.references, index < row.length := by
  obtain ⟨place, found⟩ := List.mem_iff_getElem?.mp member
  rw [getElem?_fieldRefs] at found
  obtain ⟨field, isField, rfl⟩ := Option.map_eq_some_iff.mp found
  obtain ⟨inside, -⟩ := List.getElem?_eq_some_iff.mp isField
  simpa using inside

/-- References to all fields of a row give back the row. -/
theorem evalAll_fieldRefs {schema : Schema} {row : Row} (width : row.length = schema.length) :
    evalAll row (fieldRefs schema) = .ok row := by
  rw [evalAll_eq_ok_iff, List.forall₂_iff_get]
  refine ⟨by simp [width], fun index inside below => ?_⟩
  have reference := getElem?_fieldRefs schema index
  rw [List.getElem?_eq_getElem inside] at reference
  obtain ⟨field, _, isRef⟩ := Option.map_eq_some_iff.mp reference.symm
  simp [← isRef, eval, below]

/-- References to all fields but those from `start` to `stop` leave out the values there. -/
theorem evalAll_fieldRefs_without {schema : Schema} {row : Row} (width : row.length = schema.length)
    (start stop : Nat) :
    evalAll row ((fieldRefs schema).take start ++ (fieldRefs schema).drop stop) =
      .ok (row.take start ++ row.drop stop) := by
  have places := evalAll_eq_ok_iff.mp (evalAll_fieldRefs width)
  exact evalAll_append (evalAll_eq_ok_iff.mpr (List.forall₂_take start places))
    (evalAll_eq_ok_iff.mpr (List.forall₂_drop stop places))

/-! ### Calls of native functions -/

/-- A call of `ABS`. -/
def absOf (operand : Expr) : Expr :=
  .call (.scalar (.abs "ABS")) [operand] .int

/-- A call of `TO_UPPER`. -/
def upperOf (operand : Expr) : Expr :=
  .call (.scalar (.toUpper "TO_UPPER")) [operand] .string

/-- A call of `CONCAT`. -/
def concatOf (operands : List Expr) : Expr :=
  .call (.scalar (.concat "CONCAT")) operands .string

end Lateral.Expr
