import Lateral.Proofs.Number.Rounding

/-!
# What operations on numbers compute

A number that is zero or has all its 53 bits denotes a rational number (`Denotes`). Where the
exact sum, difference, product or quotient of two such numbers is neither too small nor too large
(`InRange`), the operation computes a number that denotes a rounding of it (`Computes`).
-/

namespace Lateral.Binary64

open Float.Model Float.Model.UnpackedFloat

/-! ### Signs -/

/-- The number that a sign multiplies with. -/
def unit (sign : Sign) : ℚ :=
  (sign.apply 1 : ℤ)

theorem cast_apply (sign : Sign) (number : ℤ) :
    ((sign.apply number : ℤ) : ℚ) = unit sign * number := by
  cases sign <;> simp [unit, Sign.apply]

theorem unit_neg (sign : Sign) : unit (-sign) = -unit sign := by
  have isNeg : (-sign).apply 1 = -sign.apply 1 := by
    cases sign <;> rfl
  rw [unit, unit, isNeg, Int.cast_neg]

theorem unit_mul (left right : Sign) : unit (left * right) = unit left * unit right := by
  have isMul : (left * right).apply 1 = left.apply 1 * right.apply 1 := by
    cases left <;> cases right <;> rfl
  rw [unit, unit, unit, isMul, Int.cast_mul]

@[simp] theorem abs_unit (sign : Sign) : |unit sign| = 1 := by
  cases sign <;> simp [unit, Sign.apply]

theorem unit_div (left right : Sign) : unit (left / right) = unit left / unit right := by
  have isQuotient : left / right * right = left := by
    cases left <;> cases right <;> rfl
  have notZero : unit right ≠ 0 := by
    rw [← abs_pos, abs_unit]
    norm_num
  rw [eq_div_iff notZero, ← unit_mul, isQuotient]

theorem Rounds.unit_mul {exact rounded : ℚ} (sign : Sign) (rounds : Rounds exact rounded) :
    Rounds (unit sign * exact) (unit sign * rounded) := by
  cases sign with
  | negative => simpa [unit, Sign.apply] using rounds.neg
  | positive => simpa [unit, Sign.apply] using rounds

/-! ### Numbers and what they denote -/

/-- A zero, or a finite number with all its 53 bits, denotes a rational number. -/
inductive Denotes : UnpackedFloat → ℚ → Prop
  | zero (sign : Sign) : Denotes (.zero sign) 0
  | finite {sign : Sign} {mantissa : ℕ} {exponent : ℤ} (positive : 0 < mantissa)
      (large : 2 ^ 52 ≤ mantissa) (small : mantissa < 2 ^ 53) (lower : -1074 ≤ exponent)
      (upper : exponent ≤ 971) :
      Denotes (.finite sign mantissa exponent positive) (unit sign * (mantissa * 2 ^ exponent))

/-- A mantissa of 53 bits without its first one, which is put back. -/
theorem toNat_append_mantissa {mantissa : ℕ} (large : 2 ^ 52 ≤ mantissa)
    (small : mantissa < 2 ^ 53) : (1#1 ++ BitVec.ofNat 52 mantissa).toNat = mantissa := by
  rw [BitVec.toNat_append, ← Nat.shiftLeft_add_eq_or_of_lt (BitVec.isLt _), BitVec.toNat_ofNat,
    BitVec.toNat_ofNat]
  omega

/-- The 64 bits of a number with a mantissa of 53 bits hold its exponent above the least one. -/
theorem pack_finite {sign : Sign} {mantissa biased : ℕ} (positive : 0 < mantissa)
    (large : 2 ^ 52 ≤ mantissa) (small : mantissa < 2 ^ 53) (upper : biased < 2047) :
    UnpackedFloat.pack .binary64 (.finite sign mantissa (biased - 1075) positive)
      = packComponents .binary64 sign (BitVec.ofNat 11 biased) (BitVec.ofNat 52 mantissa) := by
  have isLog : mantissa.log2 = 52 := (Nat.log2_eq_iff (by omega)).mpr ⟨large, small⟩
  have isBias : (Format.binary64.exponentBias : ℤ) = 1023 := rfl
  have isExponent : ((biased : ℤ) - 1075 + Format.binary64.exponentBias + (52 : ℕ)).toNat
      = biased := by omega
  simp only [UnpackedFloat.pack, isLog, isExponent]
  rw [if_neg (by omega), if_pos (by decide)]

/-- Such a number keeps its sign, mantissa and exponent in its 64 bits. -/
theorem Denotes.unpack_pack {unpacked : UnpackedFloat} {value : ℚ}
    (denotes : Denotes unpacked value) : (Float.Model.pack unpacked).unpack = unpacked := by
  cases denotes with
  | zero sign => cases sign <;> rfl
  | @finite sign mantissa exponent positive large small lower upper =>
      obtain ⟨biased, isBiased⟩ : ∃ biased : ℕ, exponent + 1075 = biased :=
        Int.eq_ofNat_of_zero_le (by omega)
      obtain rfl : exponent = biased - 1075 := by omega
      have notZero : BitVec.ofNat 11 biased ≠ 0#11 := by
        simp [← BitVec.toNat_inj]
        omega
      have notOnes : BitVec.ofNat 11 biased ≠ -1#11 := by
        simp [← BitVec.toNat_inj]
        omega
      change UnpackedFloat.unpack .binary64 (UnpackedFloat.pack .binary64 _) = _
      rw [pack_finite positive large small (by omega)]
      simp only [UnpackedFloat.unpack, unpackExponent_packComponents,
        unpackMantissa_packComponents, unpackSign_packComponents, Sign.ofBitVec_toBitVec,
        toNat_append_mantissa large small]
      rw [if_neg notOnes, if_neg notZero, BitVec.toNat_ofNat, Nat.mod_eq_of_lt (by omega)]
      rfl

/-- The number denotes a rational number. -/
def HasValue (number : Float) (value : ℚ) : Prop :=
  Denotes number.toModel.unpack value

theorem Denotes.hasValue {unpacked : UnpackedFloat} {value : ℚ}
    (denotes : Denotes unpacked value) : HasValue (.ofModel (.pack unpacked)) value := by
  rw [HasValue, denotes.unpack_pack]
  exact denotes

/-- Zero and numbers far from the smallest and the largest ones. -/
def InRange (exact : ℚ) : Prop :=
  exact ≠ 0 → 2 ^ (-1000 : ℤ) ≤ |exact| ∧ |exact| ≤ 2 ^ (1000 : ℤ)

/-- The first bit of a number in range stands where the range allows it. -/
theorem InRange.bounds {sign : Sign} {exact : ℚ} {exponent : ℤ} {bits : ℕ}
    (inRange : InRange (unit sign * (exact * 2 ^ exponent))) (lower : 2 ^ bits ≤ exact)
    (upper : exact < 2 ^ (bits + 1)) : -1000 ≤ bits + exponent ∧ bits + exponent ≤ 1000 := by
  have stepPositive : (0 : ℚ) < 2 ^ exponent := zpow_pos (by norm_num) _
  have positive : 0 < exact * 2 ^ exponent :=
    mul_pos (lt_of_lt_of_le (by positivity) lower) stepPositive
  have isAbs : |unit sign * (exact * 2 ^ exponent)| = exact * 2 ^ exponent := by
    rw [abs_mul, abs_unit, one_mul, abs_of_pos positive]
  obtain ⟨notSmall, notLarge⟩ := inRange (abs_pos.mp (isAbs.symm ▸ positive))
  rw [isAbs] at notSmall notLarge
  have aboveLeast : (2 : ℚ) ^ (-1000 : ℤ) < 2 ^ ((bits + 1 : ℕ) + exponent : ℤ) := by
    rw [zpow_add₀ (by norm_num), zpow_natCast]
    exact notSmall.trans_lt (mul_lt_mul_of_pos_right upper stepPositive)
  have belowGreatest : (2 : ℚ) ^ (bits + exponent : ℤ) ≤ 2 ^ (1000 : ℤ) := by
    rw [zpow_add₀ (by norm_num), zpow_natCast]
    exact (mul_le_mul_of_nonneg_right lower stepPositive.le).trans notLarge
  rw [zpow_lt_zpow_iff_right₀ (by norm_num)] at aboveLeast
  rw [zpow_le_zpow_iff_right₀ (by norm_num)] at belowGreatest
  omega

/-- The number denotes a rounding of the exact one. -/
def Computes (unpacked : UnpackedFloat) (exact : ℚ) : Prop :=
  ∃ rounded, Denotes unpacked rounded ∧ Rounds exact rounded

theorem Denotes.computes {unpacked : UnpackedFloat} {value : ℚ}
    (denotes : Denotes unpacked value) : Computes unpacked value :=
  ⟨value, denotes, .refl value⟩

theorem Computes.exists_hasValue {unpacked : UnpackedFloat} {exact : ℚ}
    (computes : Computes unpacked exact) :
    ∃ rounded, HasValue (.ofModel (.pack unpacked)) rounded ∧ Rounds exact rounded :=
  let ⟨rounded, denotes, rounds⟩ := computes
  ⟨rounded, denotes.hasValue, rounds⟩

/-- A mantissa of 53 bits and more is rounded with what it reads. -/
theorem computes_roundWithAccuracy {mantissa : ℕ} {exponent : ℤ} {accuracy : Accuracy}
    {exact : ℚ} (sign : Sign) (reads : Reads (.ofMantissaAndAccuracy mantissa accuracy) exact)
    (large : 2 ^ 52 ≤ mantissa) (inRange : InRange (unit sign * (exact * 2 ^ exponent))) :
    Computes (roundWithAccuracy .binary64 sign mantissa exponent accuracy)
      (unit sign * (exact * 2 ^ exponent)) := by
  obtain ⟨logLe, ltLog⟩ := reads.log2_bounds (by omega)
  obtain ⟨notSmall, notLarge⟩ := inRange.bounds logLe ltLog
  obtain ⟨rounded, roundedExponent, positive, isRounded, roundedLarge, roundedSmall, _, _,
    rounds⟩ := exists_roundWithAccuracy sign exponent reads large (by omega)
  rw [isRounded]
  exact ⟨_, .finite positive roundedLarge roundedSmall (by omega) (by omega), rounds.unit_mul sign⟩

/-- A smaller exponent goes with a larger mantissa. -/
theorem cast_decreaseExponent (mantissa : ℕ) {exponent target : ℤ} (le : target ≤ exponent) :
    ((decreaseExponent mantissa exponent target).1 : ℚ) * 2 ^ target = mantissa * 2 ^ exponent := by
  obtain ⟨shift, rfl⟩ := Int.le.dest le
  simp only [decreaseExponent, add_sub_cancel_left, Int.toNat_natCast, Nat.shiftLeft_eq]
  rw [zpow_add₀ (by norm_num), zpow_natCast]
  push_cast
  ring

/-- A mantissa of any size is rounded to 53 bits. -/
theorem computes_round {mantissa : ℕ} {exponent : ℤ} (sign : Sign) (positive : 0 < mantissa)
    (inRange : InRange (unit sign * (mantissa * 2 ^ exponent))) :
    Computes (UnpackedFloat.round .binary64 sign mantissa exponent)
      (unit sign * (mantissa * 2 ^ exponent)) := by
  obtain ⟨notSmall, -⟩ := inRange.bounds
    (show (2 : ℚ) ^ mantissa.log2 ≤ mantissa by exact_mod_cast Nat.log2_self_le positive.ne')
    (by exact_mod_cast Nat.lt_log2_self)
  -- The mantissa is shifted to 53 bits unless it has as many.
  obtain ⟨shift, isShift⟩ : ∃ shift, 52 - mantissa.log2 = shift := ⟨_, rfl⟩
  have isDecreased : decreaseExponent mantissa exponent
      (Format.binary64.targetExponent (totalExponent mantissa exponent))
      = (mantissa * 2 ^ shift, exponent - shift) := by
    have isAmount : (exponent
        - Format.binary64.targetExponent (totalExponent mantissa exponent)).toNat = shift := by
      simp only [Format.targetExponent, totalExponent, Format.mantissaBits, Format.minExponent]
      norm_num
      omega
    rw [decreaseExponent, isAmount, Nat.shiftLeft_eq]
  have large : 2 ^ 52 ≤ mantissa * 2 ^ shift := calc
    2 ^ 52 ≤ 2 ^ (mantissa.log2 + shift) := Nat.pow_le_pow_right two_pos (by omega)
    _ = 2 ^ mantissa.log2 * 2 ^ shift := pow_add ..
    _ ≤ mantissa * 2 ^ shift := Nat.mul_le_mul_right _ (Nat.log2_self_le positive.ne')
  have isExact : (mantissa : ℚ) * 2 ^ exponent
      = (mantissa * 2 ^ shift : ℕ) * 2 ^ (exponent - shift) := by
    rw [zpow_sub₀ (by norm_num), zpow_natCast]
    push_cast
    field_simp
  rw [isExact] at inRange ⊢
  simp only [UnpackedFloat.round, isDecreased]
  exact computes_roundWithAccuracy sign (reads_exact _) large inRange

/-- An integer other than zero is rounded with its sign apart. -/
theorem exists_normalize_eq_round {mantissa : ℤ} (notZero : mantissa ≠ 0) (exponent : ℤ)
    (zeroSign : Sign) :
    ∃ sign, (mantissa : ℚ) = unit sign * mantissa.natAbs
      ∧ UnpackedFloat.normalize .binary64 mantissa exponent zeroSign
        = UnpackedFloat.round .binary64 sign mantissa.natAbs exponent := by
  obtain ⟨size, rfl | rfl⟩ := mantissa.eq_nat_or_neg
  · refine ⟨.positive, by simp [unit, Sign.apply], ?_⟩
    simp [UnpackedFloat.normalize, compare_gt_iff_gt.mpr (show (size : ℤ) > 0 by omega)]
  · refine ⟨.negative, by simp [unit, Sign.apply], ?_⟩
    simp [UnpackedFloat.normalize, compare_lt_iff_lt.mpr (show -(size : ℤ) < 0 by omega)]

/-- An integer times a power of two is rounded to 53 bits. -/
theorem computes_normalize {mantissa exponent : ℤ} (zeroSign : Sign)
    (inRange : InRange (mantissa * 2 ^ exponent)) :
    Computes (UnpackedFloat.normalize .binary64 mantissa exponent zeroSign)
      (mantissa * 2 ^ exponent) := by
  rcases eq_or_ne mantissa 0 with rfl | notZero
  · rw [Int.cast_zero, zero_mul]
    exact (Denotes.zero zeroSign).computes
  · obtain ⟨sign, isExact, isRound⟩ := exists_normalize_eq_round notZero exponent zeroSign
    rw [isExact, mul_assoc] at inRange ⊢
    rw [isRound]
    exact computes_round sign (by omega) inRange

/-! ### Operations -/

section Operations

variable {left right : UnpackedFloat} {first second : ℚ}

theorem computes_add (isFirst : Denotes left first) (isSecond : Denotes right second)
    (inRange : InRange (first + second)) :
    Computes (UnpackedFloat.add .binary64 left right) (first + second) := by
  cases isFirst with
  | zero leftSign =>
      rw [zero_add]
      cases isSecond with
      | zero rightSign =>
          simp only [UnpackedFloat.add]
          split <;> exact (Denotes.zero _).computes
      | finite positive large small lower upper =>
          exact (Denotes.finite positive large small lower upper).computes
  | @finite leftSign leftMantissa leftExponent positive large small lower upper =>
      cases isSecond with
      | zero rightSign =>
          rw [add_zero]
          exact (Denotes.finite positive large small lower upper).computes
      | @finite rightSign rightMantissa rightExponent =>
          have isSum : unit leftSign * (leftMantissa * 2 ^ leftExponent)
                + unit rightSign * (rightMantissa * 2 ^ rightExponent)
              = (leftSign.apply (decreaseExponent leftMantissa leftExponent
                    (min leftExponent rightExponent)).1
                  + rightSign.apply (decreaseExponent rightMantissa rightExponent
                    (min leftExponent rightExponent)).1 : ℤ)
                * 2 ^ min leftExponent rightExponent := by
            rw [← cast_decreaseExponent leftMantissa (min_le_left leftExponent rightExponent),
              ← cast_decreaseExponent rightMantissa (min_le_right leftExponent rightExponent),
              Int.cast_add, cast_apply, cast_apply]
            push_cast
            ring
          rw [isSum] at inRange ⊢
          exact computes_normalize .positive inRange

theorem Denotes.neg (isFirst : Denotes left first) : Denotes left.neg (-first) := by
  cases isFirst with
  | zero sign =>
      rw [neg_zero]
      exact .zero (-sign)
  | finite positive large small lower upper =>
      rw [← neg_mul, ← unit_neg]
      exact .finite positive large small lower upper

/-- To subtract a number is to add its opposite. -/
theorem sub_eq_add (format : Format) (left right : UnpackedFloat) :
    UnpackedFloat.sub format left right = UnpackedFloat.add format left right.neg := by
  have apply_neg (sign : Sign) (number : ℤ) : (-sign).apply number = -sign.apply number := by
    cases sign with
    | negative => exact (neg_neg number).symm
    | positive => rfl
  cases left <;> cases right <;> try rfl
  simp only [UnpackedFloat.sub, UnpackedFloat.add, UnpackedFloat.neg, apply_neg, sub_eq_add_neg]

theorem computes_sub (isFirst : Denotes left first) (isSecond : Denotes right second)
    (inRange : InRange (first - second)) :
    Computes (UnpackedFloat.sub .binary64 left right) (first - second) := by
  rw [sub_eq_add_neg] at inRange ⊢
  rw [sub_eq_add]
  exact computes_add isFirst isSecond.neg inRange

theorem computes_mul (isFirst : Denotes left first) (isSecond : Denotes right second)
    (inRange : InRange (first * second)) :
    Computes (UnpackedFloat.mul .binary64 left right) (first * second) := by
  cases isFirst with
  | zero leftSign =>
      rw [zero_mul]
      cases isSecond <;> exact (Denotes.zero _).computes
  | @finite leftSign leftMantissa leftExponent leftPositive leftLarge =>
      cases isSecond with
      | zero rightSign =>
          rw [mul_zero]
          exact (Denotes.zero _).computes
      | @finite rightSign rightMantissa rightExponent rightPositive rightLarge =>
          have isProduct : unit leftSign * (leftMantissa * 2 ^ leftExponent)
                * (unit rightSign * (rightMantissa * 2 ^ rightExponent))
              = unit (leftSign * rightSign)
                * ((leftMantissa * rightMantissa : ℕ) * 2 ^ (leftExponent + rightExponent)) := by
            rw [unit_mul, zpow_add₀ (by norm_num)]
            push_cast
            ring
          rw [isProduct] at inRange ⊢
          refine computes_roundWithAccuracy _ (reads_exact _) ?_ inRange
          exact leftLarge.trans (Nat.le_mul_of_pos_right _ rightPositive)

/-- Mantissas of 53 bits are divided after a shift by 53 bits. -/
theorem divCore_eq {leftMantissa rightMantissa : ℕ} {leftExponent rightExponent : ℤ}
    (leftLog : leftMantissa.log2 = 52) (rightLog : rightMantissa.log2 = 52)
    (notSmall : -1021 ≤ leftExponent - rightExponent) :
    divCore .binary64 leftMantissa leftExponent rightMantissa rightExponent
      = (leftMantissa * 2 ^ 53 / rightMantissa, leftExponent - rightExponent - 53,
          accuracyOfFraction (leftMantissa * 2 ^ 53 % rightMantissa) rightMantissa) := by
  have isTarget : min (leftExponent - rightExponent)
      (Format.binary64.targetExponent (totalExponent leftMantissa leftExponent
        - totalExponent rightMantissa rightExponent)) = leftExponent - rightExponent - 53 := by
    simp only [Format.targetExponent, totalExponent, Format.mantissaBits, Format.minExponent,
      leftLog, rightLog]
    norm_num
    omega
  simp only [divCore, isTarget, sub_sub_cancel, Nat.shiftLeft_eq]
  rfl

/-- The quotient of mantissas of 53 bits has 53 or 54 bits after the shift. -/
theorem quotient_bounds {leftMantissa rightMantissa : ℕ} (leftLarge : 2 ^ 52 ≤ leftMantissa)
    (leftSmall : leftMantissa < 2 ^ 53) (rightLarge : 2 ^ 52 ≤ rightMantissa)
    (rightSmall : rightMantissa < 2 ^ 53) :
    2 ^ 52 ≤ leftMantissa * 2 ^ 53 / rightMantissa
      ∧ (leftMantissa * 2 ^ 53 / rightMantissa).log2 < 54 := by
  have rightPositive : 0 < rightMantissa := by omega
  have large : 2 ^ 52 ≤ leftMantissa * 2 ^ 53 / rightMantissa := by
    rw [Nat.le_div_iff_mul_le rightPositive]
    omega
  refine ⟨large, ?_⟩
  rw [Nat.log2_lt (by omega), Nat.div_lt_iff_lt_mul rightPositive]
  omega

theorem computes_div (isFirst : Denotes left first) (isSecond : Denotes right second)
    (notZero : second ≠ 0) (inRange : InRange (first / second)) :
    Computes (UnpackedFloat.div .binary64 left right) (first / second) := by
  cases isSecond with
  | zero rightSign => exact absurd rfl notZero
  | @finite rightSign rightMantissa rightExponent rightPositive rightLarge rightSmall =>
      cases isFirst with
      | zero leftSign =>
          rw [zero_div]
          exact (Denotes.zero _).computes
      | @finite leftSign leftMantissa leftExponent leftPositive leftLarge leftSmall =>
          have isQuotient : unit leftSign * (leftMantissa * 2 ^ leftExponent)
                / (unit rightSign * (rightMantissa * 2 ^ rightExponent))
              = unit (leftSign / rightSign) * ((leftMantissa * 2 ^ 53 : ℕ) / rightMantissa
                * 2 ^ (leftExponent - rightExponent - 53)) := by
            rw [unit_div, zpow_sub₀ (by norm_num), zpow_sub₀ (by norm_num), mul_div_mul_comm]
            push_cast
            field_simp
          have reads := reads_fraction (leftMantissa * 2 ^ 53) rightPositive
          obtain ⟨large, small⟩ := quotient_bounds leftLarge leftSmall rightLarge rightSmall
          rw [isQuotient] at inRange ⊢
          have notSmall : -1021 ≤ leftExponent - rightExponent := by
            obtain ⟨logLe, ltLog⟩ := reads.log2_bounds (by omega)
            have := (inRange.bounds logLe ltLog).1
            omega
          simp only [UnpackedFloat.div, divCore_eq ((Nat.log2_eq_iff (by omega)).mpr
            ⟨leftLarge, leftSmall⟩) ((Nat.log2_eq_iff (by omega)).mpr
            ⟨rightLarge, rightSmall⟩) notSmall]
          exact computes_roundWithAccuracy _ reads large inRange

end Operations

end Lateral.Binary64
