import Lateral.Function.Arithmetic
import Lateral.Proofs.Number.Integers

/-!
# What arithmetic on integers gives

The operations compute in double precision, so a product is rounded where it needs more than 53
bits, and a quotient nearly always is. What remains of it once the fraction is cut off is the exact
result all the same, or out of range with it (`ArithmeticOp.int32?_towardZero_rational`).
-/

namespace Lateral

open Binary64

theorem int32?_eq_none_iff {number : Int} :
    int32? number = none ↔ number < -2 ^ 31 ∨ 2 ^ 31 - 1 < number := by
  have smallest : Int32.minValue.toInt = -2 ^ 31 := rfl
  have largest : Int32.maxValue.toInt = 2 ^ 31 - 1 := rfl
  rw [int32?, ite_eq_right_iff, smallest, largest]
  simp only [reduceCtorEq, imp_false]
  omega

/-- The 32-bit integer of a value is that value. -/
theorem exists_int32? {number : Int} (lower : -2 ^ 31 ≤ number) (upper : number ≤ 2 ^ 31 - 1) :
    ∃ small : Int32, small.toInt = number ∧ int32? number = some small :=
  ⟨Int32.ofInt number, Int32.toInt_ofInt_of_le lower (by omega), if_pos ⟨lower, upper⟩⟩

/-- A rounded integer is in range where the integer is, and then it is the integer. -/
theorem int32?_towardZero {exact : Int} {rounded : ℚ} (rounds : Rounds exact rounded) :
    int32? (towardZero rounded) = int32? exact := by
  rcases lt_or_ge |exact| (2 ^ 53) with small | large
  · rw [rounds.eq_of_representable (representable_intCast small), towardZero_intCast]
  · -- The first integer out of range stands between the integer and zero.
    rcases le_abs.mp large with above | below
    · have stillAbove : 2 ^ 31 ≤ towardZero rounded :=
        rounds.le_towardZero (by norm_num) (by norm_num) (Int.cast_le.mpr (by omega))
      rw [int32?_eq_none_iff.mpr (by omega), int32?_eq_none_iff.mpr (by omega)]
    · have stillBelow : 2 ^ 31 + 1 ≤ towardZero (-rounded) :=
        rounds.neg.le_towardZero (by norm_num) (by norm_num)
          (by rw [← Int.cast_neg, Int.cast_le]; omega)
      rw [towardZero_neg] at stillBelow
      rw [int32?_eq_none_iff.mpr (by omega), int32?_eq_none_iff.mpr (by omega)]

namespace ArithmeticOp

/-- The operation on rational numbers. -/
def rational : ArithmeticOp → ℚ → ℚ → ℚ
  | .add, left, right => left + right
  | .sub, left, right => left - right
  | .mul, left, right => left * right
  | .div, left, right => left / right

/-- The operation on integers without bounds. A quotient is cut off toward zero, and there is
none where the divisor is zero. -/
def integer? : ArithmeticOp → Int → Int → Option Int
  | .add, left, right => some (left + right)
  | .sub, left, right => some (left - right)
  | .mul, left, right => some (left * right)
  | .div, left, right => if right = 0 then none else some (left.tdiv right)

theorem integer?_eq_none_iff {op : ArithmeticOp} {left right : Int} :
    op.integer? left right = none ↔ op = .div ∧ right = 0 := by
  cases op <;> simp [integer?]

theorem rational_eq_cast {op : ArithmeticOp} {left right result : Int} (notDiv : op ≠ .div)
    (isResult : op.integer? left right = some result) : op.rational left right = result := by
  cases op with
  | div => exact absurd rfl notDiv
  | _ =>
      obtain rfl := Option.some.inj isResult
      simp [rational]

/-- What an operation computes is a rounding of the rational number it stands for. -/
theorem exists_hasValue_apply {op : ArithmeticOp} {left right : Float} {first second : ℚ}
    (isFirst : HasValue left first) (isSecond : HasValue right second)
    (notZero : op = .div → second ≠ 0) (inRange : InRange (op.rational first second)) :
    ∃ rounded, HasValue (op.apply left right) rounded
      ∧ Rounds (op.rational first second) rounded := by
  cases op with
  | add => exact (computes_add isFirst isSecond inRange).exists_hasValue
  | sub => exact (computes_sub isFirst isSecond inRange).exists_hasValue
  | mul => exact (computes_mul isFirst isSecond inRange).exists_hasValue
  | div => exact (computes_div isFirst isSecond (notZero rfl) inRange).exists_hasValue

section Integers

variable {left right : Int} (leftSmall : |left| ≤ 2 ^ 31) (rightSmall : |right| ≤ 2 ^ 31)
include leftSmall rightSmall

/-- The quotient of 32-bit integers is zero or at least as large as the least fraction. -/
theorem inRange_div : InRange ((left : ℚ) / right) := by
  have leftLe : |(left : ℚ)| ≤ 2 ^ 31 := by exact_mod_cast leftSmall
  have rightLe : |(right : ℚ)| ≤ 2 ^ 31 := by exact_mod_cast rightSmall
  have one_le_abs {number : Int} (notZero : (number : ℚ) ≠ 0) : (1 : ℚ) ≤ |(number : ℚ)| := by
    exact_mod_cast Int.one_le_abs (Int.cast_ne_zero.mp notZero)
  refine inRange_of_le (fun notZero => ?_) ?_ <;> rw [abs_div]
  · obtain ⟨leftNotZero, rightNotZero⟩ := div_ne_zero_iff.mp notZero
    exact div_le_div₀ (abs_nonneg _) (one_le_abs leftNotZero) (abs_pos.mpr rightNotZero) rightLe
  · by_cases rightZero : (right : ℚ) = 0
    · simp [rightZero]
    · calc |(left : ℚ)| / |(right : ℚ)| ≤ |(left : ℚ)| :=
            div_le_self (abs_nonneg _) (one_le_abs rightZero)
        _ ≤ 2 ^ 62 := leftLe.trans (by norm_num)

/-- The product of 32-bit integers takes no more than 62 bits. -/
theorem abs_mul_le : |left * right| ≤ 2 ^ 62 := calc
  |left * right| = |left| * |right| := abs_mul ..
  _ ≤ 2 ^ 31 * 2 ^ 31 := mul_le_mul leftSmall rightSmall (abs_nonneg right) (by norm_num)
  _ = 2 ^ 62 := by norm_num

theorem inRange_rational (op : ArithmeticOp) : InRange (op.rational left right) := by
  have product := abs_mul_le leftSmall rightSmall
  have quotient := inRange_div leftSmall rightSmall
  rw [abs_le] at leftSmall rightSmall
  cases op with
  | add =>
      rw [rational, ← Int.cast_add]
      exact inRange_intCast (abs_le.mpr (by omega))
  | sub =>
      rw [rational, ← Int.cast_sub]
      exact inRange_intCast (abs_le.mpr (by omega))
  | mul =>
      rw [rational, ← Int.cast_mul]
      exact inRange_intCast product
  | div => exact quotient

/-- Cut off, the rounding of what an operation stands for on integers is the exact result, or it is
out of range with that. -/
theorem int32?_towardZero_rational {op : ArithmeticOp} {result : Int} {rounded : ℚ}
    (rounds : Rounds (op.rational left right) rounded)
    (isResult : op.integer? left right = some result) :
    int32? (towardZero rounded) = int32? result := by
  by_cases isDiv : op = .div
  · subst isDiv
    obtain ⟨notZero, rfl⟩ : right ≠ 0 ∧ left.tdiv right = result := by
      simpa [integer?] using isResult
    rw [rounds.towardZero_div notZero (by omega)]
  · rw [rational_eq_cast isDiv isResult] at rounds
    exact int32?_towardZero rounds

end Integers

end ArithmeticOp

/-- A 32-bit integer is a number. -/
theorem hasValue_toInt (number : Int32) :
    |number.toInt| ≤ 2 ^ 31 ∧ HasValue (ofInt number.toInt) number.toInt := by
  have lower := Int32.le_toInt number
  have upper := Int32.toInt_lt number
  have small : |number.toInt| ≤ 2 ^ 31 := by
    rw [abs_le]
    omega
  exact ⟨small, hasValue_ofInt (by omega)⟩

/-- The operation on two integers: where there is no exact result, which is so for a quotient by
zero, the result is null, and otherwise it is the exact one in 32 bits or an error. -/
theorem computeArithmetic_int (op : ArithmeticOp) {resultType : DataType}
    (notDouble : resultType ≠ .double) (left right : Int32) :
    computeArithmetic op resultType (.int left) (.int right)
      = match op.integer? left.toInt right.toInt with
        | none => .ok .null
        | some result =>
          match int32? result with
          | some number => .ok (.int number)
          | none => .error (.call op.text (.outOfIntRange (Value.double
              (truncate (op.apply (ofInt left.toInt) (ofInt right.toInt)))).text)) := by
  obtain ⟨leftSmall, leftValue⟩ := hasValue_toInt left
  obtain ⟨rightSmall, rightValue⟩ := hasValue_toInt right
  have byZero : op.dividesByZero (ofInt right.toInt) = true
      ↔ op.integer? left.toInt right.toInt = none := by
    rw [ArithmeticOp.integer?_eq_none_iff, ArithmeticOp.dividesByZero, Bool.and_eq_true, beq_iff_eq,
      beq_zero_iff rightValue, Int.cast_eq_zero]
  simp only [computeArithmetic, Value.toDouble?]
  cases isResult : op.integer? left.toInt right.toInt with
  | none => rw [if_pos (byZero.mpr isResult)]
  | some result =>
      have notZero : op = .div → (right.toInt : ℚ) ≠ 0 := by
        rintro rfl isZero
        simp [ArithmeticOp.integer?, Int.cast_eq_zero.mp isZero] at isResult
      obtain ⟨rounded, hasValue, rounds⟩ := ArithmeticOp.exists_hasValue_apply leftValue rightValue
        notZero (ArithmeticOp.inRange_rational leftSmall rightSmall op)
      have isBound : (integerPart? (op.apply (ofInt left.toInt) (ofInt right.toInt))).bind int32?
          = int32? result := by
        rw [integerPart?_eq hasValue, Option.bind_some,
          ArithmeticOp.int32?_towardZero_rational leftSmall rightSmall rounds isResult]
      rw [if_neg (by rw [byZero, isResult]; simp)]
      cases isSmall : int32? result <;> cases resultType with
      | double => exact absurd rfl notDouble
      | _ => simp only [ofComputed, isBound, isSmall]

/-- The smallest 32-bit integer divided by minus one is the only quotient out of range. -/
theorem int32?_tdiv_eq_none_iff {left right : Int32} (notZero : right.toInt ≠ 0) :
    int32? (left.toInt.tdiv right.toInt) = none ↔ left = Int32.minValue ∧ right = -1 := by
  have smallest : Int32.minValue.toInt = -2 ^ 31 := rfl
  have minusOne : (-1 : Int32).toInt = -1 := rfl
  have lower := Int32.le_toInt left
  have upper := Int32.toInt_lt left
  rw [int32?_eq_none_iff, ← Int32.toInt_inj, ← Int32.toInt_inj, smallest, minusOne]
  generalize left.toInt = dividend at *
  generalize right.toInt = divisor at *
  obtain rfl | rfl | large : divisor = 1 ∨ divisor = -1 ∨ 2 ≤ divisor.natAbs := by omega
  · rw [Int.tdiv_one]
    omega
  · rw [Int.tdiv_neg, Int.tdiv_one]
    omega
  · have atMostHalf : (dividend.tdiv divisor).natAbs ≤ dividend.natAbs / 2 := by
      rw [Int.natAbs_tdiv]
      exact Nat.div_le_div_left large two_pos
    omega

/-- Arithmetic on integers whose result type is not `double` is exact: it gives the exact result
where that has 32 bits and an execution error where it has not, and a quotient by zero is null. Of
all quotients only the smallest integer divided by minus one is an error. -/
theorem invoke_arithmetic_int (identity : String) (op : ArithmeticOp) (resultType : DataType)
    (notDouble : resultType ≠ .double) (left right : Int32) :
    (op.integer? left.toInt right.toInt = none →
      (ScalarFunction.arithmetic identity op resultType).invoke [.int left, .int right]
        = .ok .null) ∧
    (∀ result, op.integer? left.toInt right.toInt = some result →
      -2 ^ 31 ≤ result → result ≤ 2 ^ 31 - 1 →
        ∃ number : Int32, number.toInt = result ∧
          (ScalarFunction.arithmetic identity op resultType).invoke [.int left, .int right]
            = .ok (.int number)) ∧
    (∀ result, op.integer? left.toInt right.toInt = some result →
      result < -2 ^ 31 ∨ 2 ^ 31 - 1 < result →
        ∃ error : Error, error.kind = .executionError ∧
          (ScalarFunction.arithmetic identity op resultType).invoke [.int left, .int right]
            = .error error) ∧
    (op = .div →
      ((∃ error, (ScalarFunction.arithmetic identity op resultType).invoke
          [.int left, .int right] = .error error) ↔ left = Int32.minValue ∧ right = -1)) := by
  have isInvoked : (ScalarFunction.arithmetic identity op resultType).invoke
      [.int left, .int right] = computeArithmetic op resultType (.int left) (.int right) := rfl
  rw [isInvoked, computeArithmetic_int op notDouble]
  refine ⟨fun isNone => by rw [isNone], fun result isResult lower upper => ?_,
    fun result isResult outside => ?_, ?_⟩
  · obtain ⟨number, isNumber, isSome⟩ := exists_int32? lower upper
    exact ⟨number, isNumber, by simp only [isResult, isSome]⟩
  · refine ⟨_, ?_, by simp only [isResult, int32?_eq_none_iff.mpr outside]; rfl⟩
    rfl
  · rintro rfl
    by_cases isZero : right.toInt = 0
    · have notMinusOne : right ≠ -1 := by
        rintro rfl
        simp at isZero
      simp [ArithmeticOp.integer?, isZero, notMinusOne]
    · rw [← int32?_tdiv_eq_none_iff isZero]
      cases isSome : int32? (left.toInt.tdiv right.toInt) <;>
        simp [ArithmeticOp.integer?, isZero, isSome]

/-- A negative quotient is cut off toward zero, a product of 32 bits is out of range, and a quotient
by zero is null. -/
theorem invoke_arithmetic_int_bounds :
    (ScalarFunction.arithmetic "DIV" .div .int).invoke [.int (-7), .int 2]
        = .ok (.int (-3)) ∧
      (∃ error : Error, error.kind = .executionError ∧
        (ScalarFunction.arithmetic "MUL" .mul .int).invoke [.int 46341, .int 46341]
          = .error error) ∧
      (ScalarFunction.arithmetic "DIV" .div .int).invoke [.int 7, .int 0] = .ok .null := by
  have notDouble : DataType.int ≠ .double := by decide
  obtain ⟨-, inRange, -⟩ := invoke_arithmetic_int "DIV" .div .int notDouble (-7) 2
  obtain ⟨number, isNumber, isQuotient⟩ := inRange (-3) rfl (by decide) (by decide)
  obtain rfl : number = -3 := Int32.toInt_inj.mp isNumber
  refine ⟨isQuotient, ?_, ?_⟩
  · exact (invoke_arithmetic_int "MUL" .mul .int notDouble 46341 46341).2.2.1
      2147488281 rfl (.inr (by decide))
  · exact (invoke_arithmetic_int "DIV" .div .int notDouble 7 0).1 rfl

end Lateral
