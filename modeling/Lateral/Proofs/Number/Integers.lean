import Lateral.Proofs.Number.Operations

/-!
# Integers among the numbers

Integers of up to 53 bits are numbers (`hasValue_ofInt`), and what a number denotes has the integer
part that is read off the number (`integerPart?_eq`). Rounding moves no quotient of integers across
an integer: in front of the next integer there is a number of 53 bits with the quotient below it
(`Rounds.towardZero_div`).
-/

namespace Lateral.Binary64

open Float.Model Float.Model.UnpackedFloat

theorem inRange_of_le {exact : ℚ} (lower : exact ≠ 0 → 1 / 2 ^ 31 ≤ |exact|)
    (upper : |exact| ≤ 2 ^ 62) : InRange exact := by
  refine fun notZero => ⟨le_trans ?_ (lower notZero), upper.trans ?_⟩
  · rw [one_div, ← zpow_natCast, ← zpow_neg]
    exact zpow_le_zpow_right₀ (by norm_num) (by norm_num)
  · rw [← zpow_natCast]
    exact zpow_le_zpow_right₀ (by norm_num) (by norm_num)

theorem inRange_intCast {number : ℤ} (small : |number| ≤ 2 ^ 62) : InRange number := by
  refine inRange_of_le (fun notZero => ?_) (by exact_mod_cast small)
  have atLeastOne : 1 ≤ |number| := Int.one_le_abs (by exact_mod_cast notZero)
  have : (1 : ℚ) ≤ |(number : ℚ)| := by exact_mod_cast atLeastOne
  linarith

/-- An integer of up to 53 bits is a number. -/
theorem hasValue_ofInt {number : ℤ} (small : |number| < 2 ^ 53) :
    HasValue (ofInt number) number := by
  have isExact : (number : ℚ) * 2 ^ (0 : ℤ) = number := by simp
  obtain ⟨rounded, denotes, rounds⟩ := computes_normalize .positive
    (isExact.symm ▸ inRange_intCast (by omega))
  rw [isExact] at rounds
  obtain rfl := rounds.eq_of_representable (representable_intCast small)
  exact denotes.hasValue

/-- A number compares as equal to zero when it denotes zero. -/
theorem beq_zero_iff {number : Float} {value : ℚ} (hasValue : HasValue number value) :
    (number == 0) = true ↔ value = 0 := by
  have isZero : (0 : Float).toModel.unpack = .zero .positive := rfl
  change (number.toModel.unpack.compare (0 : Float).toModel.unpack == some .eq) = true ↔ _
  rw [isZero]
  rw [HasValue] at hasValue
  generalize number.toModel.unpack = unpacked at hasValue
  cases hasValue with
  | zero sign => simp [UnpackedFloat.compare]
  | @finite sign mantissa exponent positive =>
      have notZero : unit sign * (mantissa * 2 ^ exponent) ≠ 0 := by
        rw [← abs_pos, abs_mul, abs_unit, one_mul, abs_pos]
        positivity
      cases sign <;> simp [UnpackedFloat.compare, notZero]

/-! ### Integer parts -/

/-- The integer part of a rational number, cut off toward zero. -/
def towardZero (number : ℚ) : ℤ :=
  if 0 ≤ number then ⌊number⌋ else -⌊-number⌋

theorem towardZero_of_nonneg {number : ℚ} (nonneg : 0 ≤ number) : towardZero number = ⌊number⌋ :=
  if_pos nonneg

@[simp] theorem towardZero_neg (number : ℚ) : towardZero (-number) = -towardZero number := by
  rcases lt_trichotomy number 0 with negative | rfl | positive
  · simp [towardZero, negative.le, negative.not_ge]
  · simp [towardZero]
  · simp [towardZero, positive.le, positive.not_ge]

@[simp] theorem towardZero_intCast (number : ℤ) : towardZero number = number := by
  simp [towardZero, Int.floor_neg]

theorem floor_eq_wholePart (mantissa : ℕ) (exponent : ℤ) :
    ⌊(mantissa : ℚ) * 2 ^ exponent⌋ = wholePart mantissa exponent := by
  obtain ⟨size, rfl | rfl⟩ := exponent.eq_nat_or_neg
  · have isWhole : (mantissa : ℚ) * 2 ^ (size : ℤ) = (mantissa * 2 ^ size : ℕ) := by
      rw [zpow_natCast]
      push_cast
      rfl
    rw [isWhole, Int.floor_natCast]
    simp [wholePart]
  · have isFraction : (mantissa : ℚ) * 2 ^ (-size : ℤ) = mantissa / (2 ^ size : ℕ) := by
      rw [zpow_neg, zpow_natCast, ← div_eq_mul_inv]
      push_cast
      rfl
    rw [isFraction, Rat.floor_natCast_div_natCast]
    simp [wholePart]

/-- The integer part that is read off a number is that of what the number denotes. -/
theorem integerPart?_eq {number : Float} {value : ℚ} (hasValue : HasValue number value) :
    integerPart? number = some (towardZero value) := by
  rw [HasValue] at hasValue
  rw [integerPart?]
  generalize number.toModel.unpack = unpacked at hasValue
  cases hasValue with
  | zero sign => simp [towardZero]
  | @finite sign mantissa exponent =>
      have nonneg : (0 : ℚ) ≤ mantissa * 2 ^ exponent := by positivity
      have isPart := (towardZero_of_nonneg nonneg).trans (floor_eq_wholePart mantissa exponent)
      cases sign <;> simp [unit, Sign.apply, isPart]

/-! ### Rounded integers and quotients of integers -/

/-- A rounded number that is not below a natural number of 53 bits keeps an integer part that is
not below it. -/
theorem Rounds.le_towardZero {exact rounded : ℚ} (rounds : Rounds exact rounded) {bound : ℤ}
    (nonneg : 0 ≤ bound) (small : bound < 2 ^ 53) (above : bound ≤ exact) :
    bound ≤ towardZero rounded := by
  have isRepresentable := representable_intCast ((abs_of_nonneg nonneg).trans_lt small)
  have roundedAbove : (bound : ℚ) ≤ rounded := rounds.le_of_le bound isRepresentable above
  have roundedNonneg : 0 ≤ rounded := le_trans (by exact_mod_cast nonneg) roundedAbove
  rw [towardZero_of_nonneg roundedNonneg, Int.le_floor]
  exact roundedAbove

/-- Below the next integer behind a quotient there is a number of 53 bits that is not below the
quotient. -/
theorem exists_representable_ge_div {dividend divisor : ℕ} (positive : 0 < divisor)
    (small : dividend + divisor < 2 ^ 52) :
    ∃ bound, Representable bound ∧ (dividend : ℚ) / divisor ≤ bound
      ∧ bound < (dividend / divisor : ℕ) + 1 := by
  obtain ⟨bits, isBits⟩ : ∃ bits, divisor.log2 + 1 = bits := ⟨_, rfl⟩
  have divisorLt : divisor < 2 ^ bits := isBits ▸ Nat.lt_log2_self
  have leDivisor : 2 ^ bits ≤ 2 * divisor := by
    rw [← isBits, pow_succ']
    exact Nat.mul_le_mul_left 2 (Nat.log2_self_le positive.ne')
  have powPositive : (0 : ℚ) < 2 ^ bits := by positivity
  obtain ⟨whole, isWhole⟩ : ∃ whole, dividend / divisor = whole := ⟨_, rfl⟩
  have wholeLe : whole * divisor ≤ dividend := isWhole ▸ Nat.div_mul_le_self dividend divisor
  have ltNext : dividend + 1 ≤ (whole + 1) * divisor :=
    isWhole ▸ Nat.mul_comm divisor _ ▸ Nat.lt_mul_div_succ dividend positive
  rw [isWhole]
  have isBound : ((((whole + 1) * 2 ^ bits : ℕ) - 1 : ℤ) : ℚ) * 2 ^ (-bits : ℤ)
      = whole + 1 - 1 / 2 ^ bits := by
    rw [zpow_neg, zpow_natCast]
    push_cast
    field_simp
  refine ⟨(((whole + 1) * 2 ^ bits : ℕ) - 1 : ℤ) * 2 ^ (-bits : ℤ), ⟨_, -bits, ?_, rfl⟩, ?_, ?_⟩
  · have atLeastOne : 0 < (whole + 1) * 2 ^ bits := by positivity
    have fits : (whole + 1) * 2 ^ bits < 2 ^ 53 := calc
      (whole + 1) * 2 ^ bits ≤ (whole + 1) * (2 * divisor) := Nat.mul_le_mul_left _ leDivisor
      _ = 2 * (whole * divisor + divisor) := by ring
      _ < 2 ^ 53 := by omega
    generalize (whole + 1) * 2 ^ bits = steps at atLeastOne fits
    rw [abs_lt]
    omega
  · have divisorPositive : (0 : ℚ) < divisor := by exact_mod_cast positive
    have ltNextCast : (dividend : ℚ) + 1 ≤ (whole + 1) * divisor := by exact_mod_cast ltNext
    have fraction : 1 / 2 ^ bits * (divisor : ℚ) ≤ 1 := by
      rw [one_div, inv_mul_le_iff₀ powPositive, mul_one]
      exact_mod_cast divisorLt.le
    rw [isBound, div_le_iff₀ divisorPositive]
    linarith
  · rw [isBound]
    have := one_div_pos.mpr powPositive
    linarith

/-- The rounded quotient of two natural numbers has the integer part of the quotient. -/
theorem Rounds.floor_div {dividend divisor : ℕ} {rounded : ℚ} (positive : 0 < divisor)
    (small : dividend + divisor < 2 ^ 52) (rounds : Rounds (dividend / divisor) rounded) :
    ⌊rounded⌋ = (dividend / divisor : ℕ) := by
  obtain ⟨bound, isRepresentable, above, below⟩ := exists_representable_ge_div positive small
  have wholeSmall : ((dividend / divisor : ℕ) : ℤ) < 2 ^ 53 := by
    have := Nat.div_le_self dividend divisor
    omega
  refine Int.floor_eq_iff.mpr ⟨?_, ?_⟩
  · refine rounds.le_of_le _ (representable_intCast ?_) ?_
    · rwa [abs_of_nonneg (Int.natCast_nonneg _)]
    · rw [Int.cast_natCast]
      exact Nat.cast_div_le
  · exact (rounds.ge_of_ge bound isRepresentable above).trans_lt (by exact_mod_cast below)

theorem Rounds.towardZero_div_natCast {dividend divisor : ℕ} {rounded : ℚ}
    (positive : 0 < divisor) (small : dividend + divisor < 2 ^ 52)
    (rounds : Rounds (dividend / divisor) rounded) :
    towardZero rounded = (dividend : ℤ).tdiv divisor := by
  have isFloor := rounds.floor_div positive small
  have nonneg : 0 ≤ rounded := by
    rw [← Int.floor_nonneg, isFloor]
    exact Int.natCast_nonneg _
  rw [towardZero_of_nonneg nonneg, isFloor]
  rfl

/-- The rounded quotient of two integers has the integer part of the quotient. -/
theorem Rounds.towardZero_div {dividend divisor : ℤ} {rounded : ℚ} (notZero : divisor ≠ 0)
    (small : |dividend| + |divisor| < 2 ^ 52) (rounds : Rounds (dividend / divisor) rounded) :
    towardZero rounded = dividend.tdiv divisor := by
  -- The signs of both numbers are taken out of the quotient.
  have ofSizes {dividendSize divisorSize : ℕ} {rounded : ℚ} (isDivisor : |divisor| = divisorSize)
      (isDividend : |dividend| = dividendSize)
      (rounds : Rounds (dividendSize / divisorSize) rounded) :
      towardZero rounded = (dividendSize : ℤ).tdiv divisorSize := by
    have := abs_pos.mpr notZero
    exact rounds.towardZero_div_natCast (by omega) (by omega)
  obtain ⟨dividendSize, rfl | rfl⟩ := dividend.eq_nat_or_neg <;>
    obtain ⟨divisorSize, rfl | rfl⟩ := divisor.eq_nat_or_neg
  · exact ofSizes (Nat.abs_cast _) (Nat.abs_cast _) (by simpa using rounds)
  · have opposite : towardZero (-rounded) = (dividendSize : ℤ).tdiv divisorSize :=
      ofSizes (by simp) (by simp) (by simpa [div_neg] using rounds.neg)
    rw [Int.tdiv_neg, ← opposite, towardZero_neg, neg_neg]
  · have opposite : towardZero (-rounded) = (dividendSize : ℤ).tdiv divisorSize :=
      ofSizes (by simp) (by simp) (by simpa [neg_div] using rounds.neg)
    rw [Int.neg_tdiv, ← opposite, towardZero_neg, neg_neg]
  · rw [Int.tdiv_neg, Int.neg_tdiv, neg_neg]
    exact ofSizes (by simp) (by simp) (by simpa [neg_div_neg_eq] using rounds)

end Lateral.Binary64
