import Mathlib
import Lateral.Function.Catalog
import Lateral.Proofs.Expr.Evaluation

/-!
# Equality of expressions

Equality of values and of expressions is symmetric and transitive, and everything is equal to
itself that holds no NaN. The two zeros are equal and yet different numbers; apart from them equal
expressions are one expression (`Expr.eq_of_same`), so they read the same, refer to the same fields
and have the same values (`Expr.same_laws`).

Functions are compared by their identity. That an identity stands for one function is a matter of
how expressions are built, and is said of two expressions by `Expr.ShareFunctions`.
-/

namespace Lateral

namespace Value

theorem same_symm {left right : Value} (same : left.same right = true) :
    right.same left = true := by
  cases left <;> cases right <;> simp_all [Value.same, BEq.comm]

theorem same_trans {first second third : Value} (same : first.same second = true)
    (sameLater : second.same third = true) : first.same third = true := by
  cases first <;> cases second <;> cases third <;> simp_all [Value.same]
  exact BEq.trans same sameLater

/-- A value is equal to itself unless it is a NaN. -/
theorem same_self_iff {value : Value} :
    value.same value = true ↔ ∀ number, value = .double number → number.isNaN = false := by
  cases value <;> simp [Value.same]

/-- Equal values are one value, zeros apart. -/
theorem eq_of_same {left right : Value} (same : left.same right = true)
    (noZero : ∀ number, left = .double number → number ≠ 0 ∧ number ≠ -0) : left = right := by
  cases left <;> cases right <;> simp_all [Value.same]
  grind [Float.beq_iff_ne_nan_and_eq]

end Value

namespace Expr

/-- Induction over an expression with a hypothesis for every operand of a call. -/
@[elab_as_elim]
theorem induct {motive : Expr → Prop}
    (ref : ∀ index type, motive (.ref index type))
    (const : ∀ value type, motive (.const value type))
    (call : ∀ function operands type, (∀ operand ∈ operands, motive operand) →
      motive (.call function operands type)) :
    ∀ expression, motive expression
  | .ref index type => ref index type
  | .const value type => const value type
  | .call function operands type =>
    call function operands type fun operand _ => induct ref const call operand

/-- Entries that correspond place by place are related as corresponding entries of the lists
are. -/
theorem forall₂_imp_of_mem {α β : Type} {corresponds related : α → β → Prop} {entries : List α}
    {others : List β} (places : List.Forall₂ corresponds entries others)
    (each : ∀ entry ∈ entries, ∀ other ∈ others, corresponds entry other → related entry other) :
    List.Forall₂ related entries others := by
  induction places with
  | nil => exact .nil
  | cons first rest inductionHypothesis =>
      refine .cons (each _ List.mem_cons_self _ List.mem_cons_self first) ?_
      exact inductionHypothesis fun entry member other otherMember =>
        each entry (List.mem_cons_of_mem _ member) other (List.mem_cons_of_mem _ otherMember)

/-- Entries that correspond place by place across a list between them are related as the entries
of the first list are. -/
theorem forall₂_trans_of_mem {α β γ : Type} {earlier : α → β → Prop} {later : β → γ → Prop}
    {related : α → γ → Prop} {firsts : List α} {seconds : List β} {thirds : List γ}
    (places : List.Forall₂ earlier firsts seconds) (others : List.Forall₂ later seconds thirds)
    (each : ∀ first ∈ firsts, ∀ second third, earlier first second → later second third →
      related first third) : List.Forall₂ related firsts thirds := by
  induction places generalizing thirds with
  | nil =>
      cases others
      exact .nil
  | cons first rest inductionHypothesis =>
      cases others with
      | cons second others =>
          refine .cons (each _ List.mem_cons_self _ _ first second) ?_
          exact inductionHypothesis others fun entry member =>
            each entry (List.mem_cons_of_mem _ member)

theorem sameAll_iff {lefts rights : List Expr} :
    sameAll lefts rights = true ↔ List.Forall₂ (fun left right => left.same right = true)
      lefts rights := by
  induction lefts generalizing rights with
  | nil => cases rights <;> simp [sameAll]
  | cons left lefts inductionHypothesis => cases rights <;> simp [sameAll, inductionHypothesis]

/-- A reference is equal to itself only. -/
theorem same_ref_iff {index : Nat} {type : DataType} {other : Expr} :
    (Expr.ref index type).same other = true ↔ other = .ref index type := by
  cases other with
  | ref otherIndex otherType =>
      simp only [same, Bool.and_eq_true, beq_iff_eq, Expr.ref.injEq]
      exact and_congr eq_comm eq_comm
  | _ => simp [same]

/-- A literal is equal to literals of equal values. -/
theorem same_const_iff {value : Value} {type : DataType} {other : Expr} :
    (Expr.const value type).same other = true ↔
      ∃ otherValue, other = .const otherValue type ∧ value.same otherValue = true := by
  cases other with
  | const otherValue otherType =>
      simp only [same, Bool.and_eq_true, beq_iff_eq, Expr.const.injEq]
      constructor
      · rintro ⟨sameValue, rfl⟩
        exact ⟨otherValue, ⟨rfl, rfl⟩, sameValue⟩
      · rintro ⟨_, ⟨rfl, rfl⟩, sameValue⟩
        exact ⟨sameValue, rfl⟩
  | _ => simp [same]

/-- A call is equal to calls of the same function on equal operands. -/
theorem same_call_iff {function : Function} {operands : List Expr} {type : DataType}
    {other : Expr} :
    (Expr.call function operands type).same other = true ↔
      ∃ otherFunction others, other = .call otherFunction others type ∧
        function.identity = otherFunction.identity ∧
          List.Forall₂ (fun left right => left.same right = true) operands others := by
  cases other with
  | call otherFunction others otherType =>
      simp only [same, Bool.and_eq_true, beq_iff_eq, sameAll_iff, Expr.call.injEq]
      constructor
      · rintro ⟨⟨sameFunction, rfl⟩, sameOperands⟩
        exact ⟨otherFunction, others, ⟨rfl, rfl, rfl⟩, sameFunction, sameOperands⟩
      · rintro ⟨_, _, ⟨rfl, rfl, rfl⟩, sameFunction, sameOperands⟩
        exact ⟨⟨sameFunction, rfl⟩, sameOperands⟩
  | _ => simp [same]

/-- Equality goes both ways. -/
theorem same_symm {left right : Expr} (same : left.same right = true) :
    right.same left = true := by
  induction left using induct generalizing right with
  | ref index type =>
      obtain rfl := same_ref_iff.mp same
      exact same
  | const value type =>
      obtain ⟨otherValue, rfl, sameValue⟩ := same_const_iff.mp same
      exact same_const_iff.mpr ⟨value, rfl, Value.same_symm sameValue⟩
  | call function operands type inductionHypothesis =>
      obtain ⟨otherFunction, others, rfl, sameFunction, sameOperands⟩ := same_call_iff.mp same
      refine same_call_iff.mpr ⟨function, operands, rfl, sameFunction.symm, ?_⟩
      have turned : List.Forall₂ (fun operand other => other.same operand = true) operands others :=
        forall₂_imp_of_mem sameOperands fun operand member _ _ => inductionHypothesis operand member
      exact turned.flip

/-- Equality goes along a chain of expressions. -/
theorem same_trans {first second third : Expr} (same : first.same second = true)
    (sameLater : second.same third = true) : first.same third = true := by
  induction first using induct generalizing second third with
  | ref index type =>
      obtain rfl := same_ref_iff.mp same
      exact sameLater
  | const value type =>
      obtain ⟨otherValue, rfl, sameValue⟩ := same_const_iff.mp same
      obtain ⟨lastValue, rfl, sameLastValue⟩ := same_const_iff.mp sameLater
      exact same_const_iff.mpr ⟨lastValue, rfl, Value.same_trans sameValue sameLastValue⟩
  | call function operands type inductionHypothesis =>
      obtain ⟨otherFunction, others, rfl, sameFunction, sameOperands⟩ := same_call_iff.mp same
      obtain ⟨lastFunction, lasts, rfl, sameLastFunction, sameLasts⟩ := same_call_iff.mp sameLater
      refine same_call_iff.mpr ⟨lastFunction, lasts, rfl, sameFunction.trans sameLastFunction, ?_⟩
      exact forall₂_trans_of_mem sameOperands sameLasts fun operand member _ _ =>
        inductionHypothesis operand member

/-- The number that a node is a literal of, if it is one of double precision. -/
def double? : Expr → Option Float
  | .const (.double number) _ => some number
  | _ => none

/-- The function that a node calls, if it is a call. -/
def called? : Expr → Option Function
  | .call function _ _ => some function
  | _ => none

/-- The double precision numbers that stand in an expression, from left to right. -/
def doubles (expression : Expr) : List Float :=
  expression.nodes.filterMap double?

/-- The functions that an expression calls, from left to right. -/
def functions (expression : Expr) : List Function :=
  expression.nodes.filterMap called?

/-- A call holds what its operands hold. -/
@[simp] theorem doubles_call (function : Function) (operands : List Expr) (type : DataType) :
    (Expr.call function operands type).doubles = operands.flatMap doubles := by
  rw [doubles, nodes, nodesAll_eq_flatMap, List.filterMap_cons_none rfl, List.filterMap_flatMap]
  rfl

/-- A call calls its function before those that its operands call. -/
@[simp] theorem functions_call (function : Function) (operands : List Expr) (type : DataType) :
    (Expr.call function operands type).functions = function :: operands.flatMap functions := by
  rw [functions, nodes, nodesAll_eq_flatMap, List.filterMap_cons_some (f := called?) rfl,
    List.filterMap_flatMap]
  rfl

/-- An expression is equal to itself unless there is a NaN in it. -/
theorem same_self_iff {expression : Expr} :
    expression.same expression = true ↔ ∀ number ∈ expression.doubles, number.isNaN = false := by
  induction expression using induct with
  | ref index type => simp [same, doubles, nodes, double?]
  | const value type =>
      cases value <;> simp [same, doubles, nodes, double?, Value.same]
  | call function operands type inductionHypothesis =>
      have sameOperands : List.Forall₂ (fun left right => left.same right = true)
            operands operands ↔ ∀ operand ∈ operands, operand.same operand = true :=
        List.forall₂_same
      rw [same_call_iff, doubles_call]
      constructor
      · rintro ⟨_, _, ⟨⟩, -, places⟩ number inside
        obtain ⟨operand, member, held⟩ := List.mem_flatMap.mp inside
        exact (inductionHypothesis operand member).mp (sameOperands.mp places operand member)
          number held
      · intro noNaN
        refine ⟨function, operands, rfl, rfl, sameOperands.mpr fun operand member => ?_⟩
        exact (inductionHypothesis operand member).mpr fun number held =>
          noNaN number (List.mem_flatMap.mpr ⟨operand, member, held⟩)

/-- Where two expressions call functions of one identity, it is one function. -/
def ShareFunctions (left right : Expr) : Prop :=
  ∀ function ∈ left.functions, ∀ other ∈ right.functions,
    function.identity = other.identity → function = other

/-- Expressions share their functions when these are of one list of functions with an identity of
their own each. -/
theorem shareFunctions_of_nodup {functions : List Function} {left right : Expr}
    (distinct : (functions.map Function.identity).Nodup)
    (calls : ∀ function ∈ left.functions, function ∈ functions)
    (otherCalls : ∀ function ∈ right.functions, function ∈ functions) :
    ShareFunctions left right := fun function called other otherCalled =>
  List.inj_on_of_nodup_map distinct (calls function called) (otherCalls other otherCalled)

/-- Equal expressions are one expression, zeros apart. -/
theorem eq_of_same {left right : Expr} (same : left.same right = true)
    (shared : ShareFunctions left right)
    (noZero : ∀ number ∈ left.doubles, number ≠ 0 ∧ number ≠ -0) : left = right := by
  induction left using induct generalizing right with
  | ref index type => exact (same_ref_iff.mp same).symm
  | const value type =>
      obtain ⟨otherValue, rfl, sameValue⟩ := same_const_iff.mp same
      rw [Value.eq_of_same sameValue]
      rintro number rfl
      exact noZero number (by simp [doubles, nodes, double?])
  | call function operands type inductionHypothesis =>
      obtain ⟨otherFunction, others, rfl, sameFunction, sameOperands⟩ := same_call_iff.mp same
      have isFunction : function = otherFunction :=
        shared function (by simp) otherFunction (by simp) sameFunction
      have areOperands : operands = others := by
        rw [← List.forall₂_eq_eq_eq]
        refine forall₂_imp_of_mem sameOperands fun operand member other otherMember same => ?_
        refine inductionHypothesis operand member same ?_ ?_
        · exact fun inner inside outer outside =>
            shared inner (by simpa using .inr ⟨operand, member, inside⟩)
              outer (by simpa using .inr ⟨other, otherMember, outside⟩)
        · exact fun number held => noZero number (by simpa using ⟨operand, member, held⟩)
      rw [isFunction, areOperands]

/-- Equal expressions refer to the same fields. -/
theorem references_eq_of_same {left right : Expr} (same : left.same right = true) :
    left.references = right.references := by
  induction left using induct generalizing right with
  | ref index type => rw [same_ref_iff.mp same]
  | const value type =>
      obtain ⟨otherValue, rfl, -⟩ := same_const_iff.mp same
      rfl
  | call function operands type inductionHypothesis =>
      obtain ⟨otherFunction, others, rfl, -, sameOperands⟩ := same_call_iff.mp same
      have sameReferences : operands.map references = others.map references := by
        rw [← List.forall₂_eq_eq_eq, List.forall₂_map_left_iff, List.forall₂_map_right_iff]
        exact forall₂_imp_of_mem sameOperands fun operand member _ _ =>
          inductionHypothesis operand member
      simp [List.flatMap, sameReferences]

/-- Equality goes both ways and along chains, and an expression is equal to itself unless it holds
a NaN. Equal expressions refer to the same fields; when there is no zero among their numbers they
also read the same and have the same value, or the same failure, on every row. -/
theorem same_laws :
    (∀ left right : Expr, left.same right = right.same left) ∧
    (∀ first second third : Expr, first.same second = true → second.same third = true →
      first.same third = true) ∧
    (∀ expression : Expr, expression.same expression = true ↔
      ∀ number ∈ expression.doubles, number.isNaN = false) ∧
    ∀ left right : Expr, left.same right = true → left.references = right.references ∧
      (ShareFunctions left right → (∀ number ∈ left.doubles, number ≠ 0 ∧ number ≠ -0) →
        left.text = right.text ∧ ∀ row, eval row left = eval row right) := by
  refine ⟨fun left right => Bool.eq_iff_iff.mpr ⟨same_symm, same_symm⟩,
    fun _ _ _ => same_trans, fun _ => same_self_iff,
    fun left right same => ⟨references_eq_of_same same, fun shared noZero => ?_⟩⟩
  obtain rfl := eq_of_same same shared noZero
  exact ⟨rfl, fun _ => rfl⟩

/-- The quotient of a field and a number. -/
def quotient (number : Float) : Expr :=
  apply (.scalar (.arithmetic "DIV" .div .double)) [.ref 0 .int, literal (.double number)]

/-- The laws at quotients by the two zeros and by another number. -/
theorem same_laws_quotient :
    (quotient 0).same (quotient (-0)) = true ∧ (quotient (-0)).same (quotient 0) = true ∧
      (quotient 0).same (quotient 0) = true ∧
      (quotient 1.5).same (quotient 1.5) = true ∧
      ShareFunctions (quotient 1.5) (quotient 1.5) ∧
      (∀ number ∈ (quotient 1.5).doubles, number ≠ 0 ∧ number ≠ -0) ∧
      (quotient 1.5).text = (quotient 1.5).text ∧
      ∀ row, eval row (quotient 1.5) = eval row (quotient 1.5) := by
  have numbers : (quotient 1.5).doubles = [1.5] := rfl
  have calls : ∀ function ∈ (quotient 1.5).functions, function ∈ Catalog.natives := by
    simp [quotient, apply, literal, functions, nodes, nodesAll, called?, Catalog.natives]
  obtain ⟨turn, chain, reflexive, equal⟩ := same_laws
  have zeros : (quotient 0).same (quotient (-0)) = true := by decide +kernel
  have zerosTurned : (quotient (-0)).same (quotient 0) = true := turn _ _ ▸ zeros
  have same : (quotient 1.5).same (quotient 1.5) = true :=
    (reflexive _).mpr (by rw [numbers]; decide)
  have shared : ShareFunctions (quotient 1.5) (quotient 1.5) :=
    shareFunctions_of_nodup (by decide) calls calls
  have noZero : ∀ number ∈ (quotient 1.5).doubles, number ≠ 0 ∧ number ≠ -0 := by
    rw [numbers]
    decide
  exact ⟨zeros, zerosTurned, chain _ _ _ zeros zerosTurned, same, shared, noZero,
    (equal _ _ same).2 shared noZero⟩

/-- Quotients by the two zeros are equal and yet read differently. -/
example : (quotient 0).text ≠ (quotient (-0)).text := by
  decide +kernel

end Expr

end Lateral
