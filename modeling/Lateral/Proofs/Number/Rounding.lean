import Mathlib
import Lateral.Number.Binary64

/-!
# Rounding to 53 bits

A computed number is the exact one or stands next to it, with no number of 53 significant bits
between the two. So rounding never carries a number across one of 53 bits (`Rounds`), and this is
all that the results of an operation say about the exact ones. The mantissa that an operation
computes comes with two bits that tell whether something was cut off (`Reads`). They survive the
shift to 53 bits (`Reads.shiftRight`), and what is rounded there is a rounding
(`Rounds.of_floor`).
-/

namespace Lateral.Binary64

open Float.Model Float.Model.UnpackedFloat

/-! ### Numbers of 53 bits -/

/-- The numbers that 53 bits and a power of two can express. -/
def Representable (number : ℚ) : Prop :=
  ∃ mantissa exponent : ℤ, |mantissa| < 2 ^ 53 ∧ number = mantissa * 2 ^ exponent

theorem Representable.neg {number : ℚ} : Representable number → Representable (-number) := by
  rintro ⟨mantissa, exponent, small, rfl⟩
  exact ⟨-mantissa, exponent, by rwa [abs_neg], by push_cast; ring⟩

theorem representable_intCast {number : ℤ} (small : |number| < 2 ^ 53) :
    Representable number :=
  ⟨number, 0, small, by simp⟩

/-- A number of 53 bits is a multiple of a power of two, or 52 bits are enough to count the powers
up to it. -/
theorem Representable.multiple_or_le {number : ℚ} (isRepresentable : Representable number)
    (exponent : ℤ) :
    (∃ count : ℤ, number = count * 2 ^ exponent) ∨ number ≤ 2 ^ 52 * 2 ^ exponent := by
  obtain ⟨mantissa, numberExponent, small, rfl⟩ := isRepresentable
  rcases le_or_gt exponent numberExponent with coarse | fine
  · obtain ⟨shift, rfl⟩ := Int.le.dest coarse
    refine .inl ⟨mantissa * 2 ^ shift, ?_⟩
    rw [zpow_add₀ (by norm_num), zpow_natCast]
    push_cast
    ring
  · have mantissaLe : (mantissa : ℚ) ≤ 2 ^ 53 := by
      exact_mod_cast (le_abs_self mantissa).trans small.le
    right
    calc (mantissa : ℚ) * 2 ^ numberExponent
        ≤ 2 ^ 53 * 2 ^ (exponent - 1) := by
          gcongr
          · norm_num
          · omega
      _ = 2 ^ 52 * 2 ^ exponent := by
          rw [zpow_sub₀ (by norm_num)]
          ring

/-- Between neighbours on a grid that needs all 53 bits, there is no number of 53 bits. -/
theorem Representable.le_or_ge {bound : ℚ} (isRepresentable : Representable bound) {whole : ℕ}
    (large : 2 ^ 52 ≤ whole) (exponent : ℤ) :
    bound ≤ whole * 2 ^ exponent ∨ (whole + 1) * 2 ^ exponent ≤ bound := by
  rcases isRepresentable.multiple_or_le exponent with ⟨count, rfl⟩ | below
  · rcases le_or_gt count whole with countLe | countGt
    · left
      gcongr
      exact_mod_cast countLe
    · right
      gcongr
      exact_mod_cast countGt
  · left
    refine below.trans ?_
    gcongr
    exact_mod_cast large

/-- Rounding carries no number across one of 53 bits. -/
structure Rounds (exact rounded : ℚ) : Prop where
  le_of_le : ∀ bound, Representable bound → bound ≤ exact → bound ≤ rounded
  ge_of_ge : ∀ bound, Representable bound → exact ≤ bound → rounded ≤ bound

theorem Rounds.refl (number : ℚ) : Rounds number number :=
  ⟨fun _ _ below => below, fun _ _ above => above⟩

theorem Rounds.neg {exact rounded : ℚ} (rounds : Rounds exact rounded) :
    Rounds (-exact) (-rounded) where
  le_of_le bound isRepresentable below :=
    le_neg.mpr (rounds.ge_of_ge (-bound) isRepresentable.neg (le_neg.mp below))
  ge_of_ge bound isRepresentable above :=
    neg_le.mpr (rounds.le_of_le (-bound) isRepresentable.neg (neg_le.mp above))

/-- A number of 53 bits stays as it is. -/
theorem Rounds.eq_of_representable {exact rounded : ℚ} (rounds : Rounds exact rounded)
    (isRepresentable : Representable exact) : rounded = exact :=
  le_antisymm (rounds.ge_of_ge exact isRepresentable le_rfl)
    (rounds.le_of_le exact isRepresentable le_rfl)

/-- A number on a grid whose steps need all 53 bits, or a neighbour on it of a number between its
points, is a rounding. -/
theorem Rounds.of_floor {exact : ℚ} {whole rounded : ℕ} (exponent : ℤ) (large : 2 ^ 52 ≤ whole)
    (ge : whole ≤ exact) (lt : exact < whole + 1)
    (isNeighbour : rounded = whole ∨ rounded = whole + 1)
    (ofWhole : exact = whole → rounded = whole) :
    Rounds (exact * 2 ^ exponent) (rounded * 2 ^ exponent) := by
  have stepPositive : (0 : ℚ) < 2 ^ exponent := zpow_pos (by norm_num) _
  have roundedGe : (whole : ℚ) ≤ rounded := by
    rcases isNeighbour with rfl | rfl <;> simp
  have roundedLe : (rounded : ℚ) ≤ whole + 1 := by
    rcases isNeighbour with rfl | rfl <;> simp
  refine ⟨fun bound isRepresentable below => ?_, fun bound isRepresentable above => ?_⟩
  · rcases isRepresentable.le_or_ge large exponent with isBelow | isAbove
    · exact isBelow.trans (mul_le_mul_of_nonneg_right roundedGe stepPositive.le)
    · exact absurd (isAbove.trans below) (not_le.mpr (mul_lt_mul_of_pos_right lt stepPositive))
  · rcases isRepresentable.le_or_ge large exponent with isBelow | isAbove
    · have isWhole : exact = whole :=
        le_antisymm (le_of_mul_le_mul_right (above.trans isBelow) stepPositive) ge
      rwa [ofWhole isWhole, ← isWhole]
    · exact (mul_le_mul_of_nonneg_right roundedLe stepPositive.le).trans isAbove

/-! ### Mantissas with the bits that were cut off -/

/-- The mantissa is the integer part of a number, and the bits behind it are unset exactly when
the number is whole. -/
structure Reads (extended : ExtendedMantissa) (exact : ℚ) : Prop where
  le : extended.mantissa ≤ exact
  lt : exact < extended.mantissa + 1
  eq_iff : exact = extended.mantissa ↔ extended.roundBit = false ∧ extended.stickyBit = false

theorem mantissa_ofMantissaAndAccuracy (mantissa : ℕ) (accuracy : Accuracy) :
    (ExtendedMantissa.ofMantissaAndAccuracy mantissa accuracy).mantissa = mantissa := by
  unfold ExtendedMantissa.ofMantissaAndAccuracy
  split <;> rfl

theorem reads_exact (mantissa : ℕ) :
    Reads (.ofMantissaAndAccuracy mantissa .exact) mantissa where
  le := le_rfl
  lt := lt_add_one _
  eq_iff := by simp [ExtendedMantissa.ofMantissaAndAccuracy]

/-- The quotient of two mantissas with the accuracy of its fraction. -/
theorem reads_fraction (numerator : ℕ) {denominator : ℕ} (positive : 0 < denominator) :
    Reads (.ofMantissaAndAccuracy (numerator / denominator)
      (accuracyOfFraction (numerator % denominator) denominator)) (numerator / denominator) := by
  have isPositive : (0 : ℚ) < denominator := by exact_mod_cast positive
  have splits : (numerator : ℚ)
      = denominator * (numerator / denominator : ℕ) + (numerator % denominator : ℕ) := by
    exact_mod_cast (Nat.div_add_mod numerator denominator).symm
  have rest : ((numerator % denominator : ℕ) : ℚ) < denominator := by
    exact_mod_cast Nat.mod_lt numerator positive
  have isMantissa := mantissa_ofMantissaAndAccuracy (numerator / denominator)
    (accuracyOfFraction (numerator % denominator) denominator)
  refine ⟨?_, ?_, ?_⟩
  · rw [isMantissa, le_div_iff₀ isPositive]
    linarith [Nat.cast_nonneg (α := ℚ) (numerator % denominator)]
  · rw [isMantissa, div_lt_iff₀ isPositive]
    linarith
  · rw [isMantissa, div_eq_iff isPositive.ne']
    have isWhole : (numerator : ℚ) = (numerator / denominator : ℕ) * denominator
        ↔ numerator % denominator = 0 := by
      rw [← Nat.cast_eq_zero (R := ℚ)]
      constructor <;> intro same <;> linarith
    rw [isWhole, accuracyOfFraction]
    by_cases noRest : numerator % denominator = 0
    · simp [noRest, ExtendedMantissa.ofMantissaAndAccuracy]
    · rw [if_neg noRest]
      cases compare (2 * (numerator % denominator)) denominator <;>
        simp [noRest, ExtendedMantissa.ofMantissaAndAccuracy]

/-- A number has its first bit where the mantissa has it. -/
theorem Reads.log2_bounds {mantissa : ℕ} {accuracy : Accuracy} {exact : ℚ}
    (reads : Reads (.ofMantissaAndAccuracy mantissa accuracy) exact) (positive : 0 < mantissa) :
    2 ^ mantissa.log2 ≤ exact ∧ exact < 2 ^ (mantissa.log2 + 1) := by
  have ge := reads.le
  have lt := reads.lt
  rw [mantissa_ofMantissaAndAccuracy] at ge lt
  exact ⟨le_trans (by exact_mod_cast Nat.log2_self_le positive.ne') ge,
    lt_of_lt_of_le lt (by exact_mod_cast Nat.lt_log2_self)⟩

theorem Reads.shiftRightOne {extended : ExtendedMantissa} {exact : ℚ}
    (reads : Reads extended exact) : Reads extended.shiftRightOne (exact / 2) := by
  obtain ⟨le, lt, eq_iff⟩ := reads
  have splits : (extended.mantissa : ℚ)
      = 2 * (extended.mantissa / 2 : ℕ) + (extended.mantissa % 2 : ℕ) := by
    exact_mod_cast (Nat.div_add_mod extended.mantissa 2).symm
  have bit : ((extended.mantissa % 2 : ℕ) : ℚ) ≤ 1 := by
    exact_mod_cast Nat.le_of_lt_succ (Nat.mod_lt extended.mantissa two_pos)
  have bitNonneg : (0 : ℚ) ≤ (extended.mantissa % 2 : ℕ) := Nat.cast_nonneg _
  refine ⟨?_, ?_, ?_⟩
  · simp only [ExtendedMantissa.shiftRightOne]
    linarith
  · simp only [ExtendedMantissa.shiftRightOne]
    linarith
  · -- Nothing is cut off where nothing was before and the last bit is unset.
    have isWhole : exact / 2 = (extended.mantissa / 2 : ℕ)
        ↔ exact = extended.mantissa ∧ extended.mantissa % 2 = 0 := by
      rw [← Nat.cast_eq_zero (R := ℚ)]
      constructor
      · intro same
        constructor <;> linarith
      · rintro ⟨same, even⟩
        linarith
    simp only [ExtendedMantissa.shiftRightOne, isWhole, eq_iff, bne_eq_false_iff_eq,
      Bool.or_eq_false_iff]
    exact and_comm

theorem Reads.shiftRight {extended : ExtendedMantissa} {exact : ℚ}
    (reads : Reads extended exact) (count : ℕ) :
    Reads (extended >>> count) (exact / 2 ^ count) := by
  change Reads (count.repeat ExtendedMantissa.shiftRightOne extended) _
  induction count with
  | zero => simpa [Nat.repeat] using reads
  | succ count inductionHypothesis =>
      rw [pow_succ, ← div_div]
      exact inductionHypothesis.shiftRightOne

/-- A mantissa is rounded to itself or to the next one, and stays where nothing was cut off. -/
theorem Reads.roundedMantissa {extended : ExtendedMantissa} {exact : ℚ}
    (reads : Reads extended exact) :
    (extended.roundedMantissa = extended.mantissa
      ∨ extended.roundedMantissa = extended.mantissa + 1)
      ∧ (exact = extended.mantissa → extended.roundedMantissa = extended.mantissa) := by
  rw [reads.eq_iff]
  obtain ⟨mantissa, roundBit, stickyBit⟩ := extended
  constructor
  · have parity := Nat.mod_two_eq_zero_or_one mantissa
    cases roundBit <;> cases stickyBit <;>
      simp [ExtendedMantissa.roundedMantissa, ExtendedMantissa.accuracy,
        Accuracy.roundToNearestEven, parity]
  · rintro ⟨noRoundBit, noStickyBit⟩
    simp only at noRoundBit noStickyBit
    rw [noRoundBit, noStickyBit]
    rfl

/-! ### Rounding a mantissa -/

/-- A mantissa with more bits than 53 is shifted to 53 where the number is not too small. -/
theorem shiftToTargetExponent_eq {mantissa shift : ℕ} {exponent : ℤ} (accuracy : Accuracy)
    (isLog : mantissa.log2 = 52 + shift) (notSmall : -1074 ≤ exponent + shift) :
    shiftToTargetExponent .binary64 mantissa exponent accuracy
      = (ExtendedMantissa.ofMantissaAndAccuracy mantissa accuracy >>> shift, exponent + shift) := by
  have isShift : (Format.binary64.targetExponent (totalExponent mantissa exponent)
      - exponent).toNat = shift := by
    simp only [Format.targetExponent, totalExponent, Format.mantissaBits, Format.minExponent]
    norm_num
    omega
  rw [shiftToTargetExponent, shiftToExponent, isShift]

/-- The shift leaves a mantissa of 53 bits. -/
theorem Reads.shiftRight_mantissa {mantissa shift : ℕ} {accuracy : Accuracy} {exact : ℚ}
    (reads : Reads (.ofMantissaAndAccuracy mantissa accuracy) exact)
    (isLog : mantissa.log2 = 52 + shift) :
    2 ^ 52 ≤ (ExtendedMantissa.ofMantissaAndAccuracy mantissa accuracy >>> shift).mantissa
      ∧ (ExtendedMantissa.ofMantissaAndAccuracy mantissa accuracy >>> shift).mantissa
        < 2 ^ 53 := by
  have shiftPositive : (0 : ℚ) < 2 ^ shift := by positivity
  have positive : 0 < mantissa := by
    refine Nat.pos_of_ne_zero fun isZero => ?_
    rw [isZero, Nat.log2_zero] at isLog
    omega
  have shifted := reads.shiftRight shift
  obtain ⟨logLe, ltLog⟩ := reads.log2_bounds positive
  rw [isLog] at logLe ltLog
  constructor
  · have lower : (2 : ℚ) ^ 52 ≤ exact / 2 ^ shift := by
      rwa [le_div_iff₀ shiftPositive, ← pow_add]
    have := lower.trans_lt shifted.lt
    exact Nat.le_of_lt_succ (by exact_mod_cast this)
  · have upper : exact / 2 ^ shift < (2 : ℚ) ^ 53 := by
      rwa [div_lt_iff₀ shiftPositive, ← pow_add, show 53 + shift = 52 + shift + 1 by omega]
    exact_mod_cast shifted.le.trans_lt upper

/-- Rounding may take one bit more than 53, which the second shift takes back. -/
theorem exists_roundWithAccuracy_of_first {mantissa : ℕ} {exponent firstExponent : ℤ}
    {accuracy : Accuracy} {first : ExtendedMantissa} (sign : Sign)
    (isFirst : shiftToTargetExponent .binary64 mantissa exponent accuracy = (first, firstExponent))
    (lower : 2 ^ 52 ≤ first.roundedMantissa) (upper : first.roundedMantissa ≤ 2 ^ 53)
    (notSmall : -1074 ≤ firstExponent) :
    ∃ (rounded : ℕ) (roundedExponent : ℤ) (positive : 0 < rounded),
      roundWithAccuracy .binary64 sign mantissa exponent accuracy
          = .finite sign rounded roundedExponent positive
        ∧ 2 ^ 52 ≤ rounded ∧ rounded < 2 ^ 53
        ∧ firstExponent ≤ roundedExponent ∧ roundedExponent ≤ firstExponent + 1
        ∧ (rounded : ℚ) * 2 ^ roundedExponent = first.roundedMantissa * 2 ^ firstExponent := by
  have isRounded (shift : ℕ) (isLog : first.roundedMantissa.log2 = 52 + shift) :
      roundWithAccuracy .binary64 sign mantissa exponent accuracy
      = let second := ExtendedMantissa.ofMantissaAndAccuracy first.roundedMantissa .exact >>> shift
        if isZero : second.mantissa = 0 then .zero sign
        else .finite sign second.mantissa (firstExponent + shift) (Nat.pos_of_ne_zero isZero) := by
    simp only [roundWithAccuracy, isFirst, shiftToTargetExponent_eq .exact isLog
      (show -1074 ≤ firstExponent + shift by omega)]
  rcases Nat.eq_or_lt_of_le upper with carries | fits
  · have isFinite := isRounded 1 (carries ▸ Nat.log2_two_pow)
    rw [carries] at isFinite
    refine ⟨2 ^ 52, firstExponent + 1, by norm_num, isFinite.trans rfl, le_rfl, by norm_num,
      by omega, le_rfl, ?_⟩
    rw [carries, zpow_add₀ (by norm_num)]
    norm_num
    ring
  · have isFinite := isRounded 0 ((Nat.log2_eq_iff (by omega)).mpr ⟨lower, fits⟩)
    refine ⟨first.roundedMantissa, firstExponent, by omega, ?_, lower, fits, le_rfl, by omega,
      rfl⟩
    simpa [ExtendedMantissa.ofMantissaAndAccuracy, HShiftRight.hShiftRight, Nat.repeat,
      show first.roundedMantissa ≠ 0 by omega] using isFinite

/-- What an operation computes is rounded to 53 bits. -/
theorem exists_roundWithAccuracy {mantissa : ℕ} {accuracy : Accuracy} {exact : ℚ} (sign : Sign)
    (exponent : ℤ) (reads : Reads (.ofMantissaAndAccuracy mantissa accuracy) exact)
    (large : 2 ^ 52 ≤ mantissa) (notSmall : -1022 ≤ mantissa.log2 + exponent) :
    ∃ (rounded : ℕ) (roundedExponent : ℤ) (positive : 0 < rounded),
      roundWithAccuracy .binary64 sign mantissa exponent accuracy
          = .finite sign rounded roundedExponent positive
        ∧ 2 ^ 52 ≤ rounded ∧ rounded < 2 ^ 53
        ∧ mantissa.log2 + exponent ≤ 52 + roundedExponent
        ∧ 52 + roundedExponent ≤ mantissa.log2 + exponent + 1
        ∧ Rounds (exact * 2 ^ exponent) (rounded * 2 ^ roundedExponent) := by
  obtain ⟨shift, isLog⟩ : ∃ shift, mantissa.log2 = 52 + shift :=
    Nat.exists_eq_add_of_le ((Nat.le_log2 (by omega)).mpr large)
  have isFirst := shiftToTargetExponent_eq accuracy isLog (show -1074 ≤ exponent + shift by omega)
  obtain ⟨lower, upper⟩ := reads.shiftRight_mantissa isLog
  have shifted := reads.shiftRight shift
  obtain ⟨isNeighbour, ofWhole⟩ := shifted.roundedMantissa
  obtain ⟨rounded, roundedExponent, positive, isRounded, roundedLower, roundedUpper, exponentLower,
    exponentUpper, sameValue⟩ :=
    exists_roundWithAccuracy_of_first sign isFirst (by omega) (by omega) (by omega)
  refine ⟨rounded, roundedExponent, positive, isRounded, roundedLower, roundedUpper, by omega,
    by omega, ?_⟩
  have isExact : exact * 2 ^ exponent = exact / 2 ^ shift * 2 ^ (exponent + shift) := by
    rw [zpow_add₀ (by norm_num), zpow_natCast]
    field_simp
  rw [sameValue, isExact]
  exact Rounds.of_floor _ lower shifted.le shifted.lt isNeighbour ofWhole

end Lateral.Binary64
