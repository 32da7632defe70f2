import Mathlib.Algebra.Order.Floor.Ring
import Mathlib.Data.Rat.Floor
import Mathlib.Logic.Function.Iterate
import Lateral.Function.Table

/-!
# The integers of a range

`RANGE` counts in 64 bits from `start` in steps of `step` as long as `stop` is ahead, and gives
the numbers on the way in 32 bits. `rangeCount` says how many these are. Up to there the counter
is the exact number, and so is the one behind the last, at which the counting ends
(`toInt_rangeCounter`, `beforeStop_rangeCounter_iff`); so the rows are the exact numbers, whatever
the limits and the step (`TableFunction.generateBehind_range`).
-/

namespace Lateral

/-- How many numbers there are from `start` in steps of `step` before `stop`. -/
def rangeCount (start stop step : Int32) : ℕ :=
  ⌈((stop.toInt - start.toInt : ℤ) : ℚ) / (step.toInt : ℚ)⌉.toNat

/-- The counter of a range after a number of steps. -/
def rangeCounter (start step : Int32) (steps : ℕ) : Int64 :=
  (· + step.toInt64)^[steps] start.toInt64

/-- The start, stop and step that range arguments stand for. -/
inductive RangeLimits : List Value → Int32 → Int32 → Int32 → Prop where
  | stopOnly (stop : Int32) : RangeLimits [.int stop] 0 stop 1
  | startStop (start stop : Int32) : RangeLimits [.int start, .int stop] start stop 1
  | startStopStep (start stop step : Int32) :
      RangeLimits [.int start, .int stop, .int step] start stop step

section Count

variable {start stop step : Int32} {steps : ℕ}

/-- A step other than zero is an integer other than zero. -/
theorem toInt_step_ne_zero (moves : step ≠ 0) : step.toInt ≠ 0 :=
  fun still => moves (Int32.toInt_inj.mp still)

/-- On the way up a number is counted if it is below `stop`. -/
theorem lt_rangeCount_iff_of_pos (up : 0 < step.toInt) :
    steps < rangeCount start stop step ↔ start.toInt + steps * step.toInt < stop.toInt := by
  have up' : (0 : ℚ) < step.toInt := by exact_mod_cast up
  rw [rangeCount, Int.lt_toNat, Int.lt_ceil, lt_div_iff₀ up', ← Int.cast_mul, Int.cast_lt]
  omega

/-- On the way down a number is counted if it is above `stop`. -/
theorem lt_rangeCount_iff_of_neg (down : step.toInt < 0) :
    steps < rangeCount start stop step ↔ stop.toInt < start.toInt + steps * step.toInt := by
  have down' : (step.toInt : ℚ) < 0 := by exact_mod_cast down
  rw [rangeCount, Int.lt_toNat, Int.lt_ceil, lt_div_iff_of_neg down', ← Int.cast_mul, Int.cast_lt]
  omega

/-- The numbers that are counted lie between the limits. -/
theorem between_of_lt_rangeCount (moves : step ≠ 0) (counted : steps < rangeCount start stop step) :
    min start.toInt stop.toInt ≤ start.toInt + steps * step.toInt ∧
      start.toInt + steps * step.toInt ≤ max start.toInt stop.toInt := by
  rcases lt_or_gt_of_ne (toInt_step_ne_zero moves) with down | up
  · have above := (lt_rangeCount_iff_of_neg down).mp counted
    have fallen : steps * step.toInt ≤ 0 := mul_nonpos_of_nonneg_of_nonpos (by omega) down.le
    omega
  · have below := (lt_rangeCount_iff_of_pos up).mp counted
    have risen : 0 ≤ steps * step.toInt := mul_nonneg (by omega) up.le
    omega

/-- There are no more numbers than the distance between the limits. -/
theorem rangeCount_le_natAbs (moves : step ≠ 0) :
    rangeCount start stop step ≤ (stop.toInt - start.toInt).natAbs := by
  -- As many steps as the distance lead to `stop` at least, where nothing is counted any more.
  by_contra more
  have counted := Nat.lt_of_not_le more
  rcases lt_or_gt_of_ne (toInt_step_ne_zero moves) with down | up
  · have above := (lt_rangeCount_iff_of_neg down).mp counted
    have far := Int.mul_le_mul_of_nonneg_left (Int.le_sub_one_of_lt down)
      (Int.natCast_nonneg (stop.toInt - start.toInt).natAbs)
    omega
  · have below := (lt_rangeCount_iff_of_pos up).mp counted
    have far := Int.mul_le_mul_of_nonneg_left (Int.add_one_le_of_lt up)
      (Int.natCast_nonneg (stop.toInt - start.toInt).natAbs)
    omega

end Count

/-- Counting takes every number that the counter goes through up to the one that ends it. -/
theorem countFrom_eq {stop step current : Int64} {count fuel : ℕ} (enough : count ≤ fuel)
    (ahead : ∀ steps < count, beforeStop stop step ((· + step)^[steps] current) = true)
    (ends : beforeStop stop step ((· + step)^[count] current) = false) :
    countFrom stop step fuel current =
      (List.range count).map fun steps => (· + step)^[steps] current := by
  induction count generalizing current fuel with
  | zero =>
      cases fuel with
      | zero => rfl
      | succ fuel => simpa [countFrom] using ends
  | succ count inductionHypothesis =>
      cases fuel with
      | zero => cases enough
      | succ fuel =>
          have first : beforeStop stop step current = true := ahead 0 (Nat.succ_pos count)
          have rest := inductionHypothesis (Nat.le_of_succ_le_succ enough)
            (fun steps below => ahead (steps + 1) (Nat.succ_lt_succ below)) ends
          -- The way from the next number on is the same way without its first number.
          rw [countFrom, if_pos first, rest, List.range_succ_eq_map]
          simp [Function.comp_def]

section Counter

variable {start stop step : Int32} {steps : ℕ}

/-- The counter is the exact number as far as a word goes. -/
theorem rangeCounter_eq_ofInt :
    rangeCounter start step steps = Int64.ofInt (start.toInt + steps * step.toInt) := by
  induction steps with
  | zero => simp [rangeCounter, ← Int32.toInt_toInt64]
  | succ steps inductionHypothesis =>
      rw [rangeCounter] at inductionHypothesis ⊢
      rw [Function.iterate_succ_apply', inductionHypothesis, ← Int64.ofInt_toInt step.toInt64,
        ← Int64.ofInt_add, Int32.toInt_toInt64]
      congr 1
      push_cast
      ring

/-- The numbers of a range fit into 32 bits. -/
theorem fits_of_lt_rangeCount (moves : step ≠ 0)
    (counted : steps < rangeCount start stop step) :
    -2 ^ 31 ≤ start.toInt + steps * step.toInt ∧ start.toInt + steps * step.toInt < 2 ^ 31 := by
  have between := between_of_lt_rangeCount moves counted
  have := start.le_toInt
  have := start.toInt_lt
  have := stop.le_toInt
  have := stop.toInt_lt
  omega

/-- These numbers, and the one behind the last of them, fit into 64 bits. -/
theorem fits_of_le_rangeCount (moves : step ≠ 0)
    (counted : steps ≤ rangeCount start stop step) :
    -2 ^ 63 ≤ start.toInt + steps * step.toInt ∧ start.toInt + steps * step.toInt < 2 ^ 63 := by
  cases steps with
  | zero =>
      have := start.le_toInt
      have := start.toInt_lt
      omega
  | succ last =>
      -- The number in front of this one fits into 32 bits, and so does the step.
      have inRange := fits_of_lt_rangeCount moves counted
      have := step.le_toInt
      have := step.toInt_lt
      push_cast
      rw [add_mul, one_mul]
      omega

/-- The counter is the exact number as long as numbers are counted, and once more. -/
theorem toInt_rangeCounter (moves : step ≠ 0)
    (counted : steps ≤ rangeCount start stop step) :
    (rangeCounter start step steps).toInt = start.toInt + steps * step.toInt := by
  obtain ⟨above, below⟩ := fits_of_le_rangeCount moves counted
  rw [rangeCounter_eq_ofInt, Int64.toInt_ofInt_of_le above below]

/-- Narrowing the counter to 32 bits gives the exact number where it is counted. -/
theorem toInt_toInt32_rangeCounter (moves : step ≠ 0)
    (counted : steps < rangeCount start stop step) :
    (rangeCounter start step steps).toInt32.toInt = start.toInt + steps * step.toInt := by
  obtain ⟨above, below⟩ := fits_of_lt_rangeCount moves counted
  rw [rangeCounter_eq_ofInt, Int64.toInt32_ofInt, Int32.toInt_ofInt_of_le above below]

/-- Counting goes on at the numbers that are counted and ends behind the last of them. -/
theorem beforeStop_rangeCounter_iff (moves : step ≠ 0)
    (counted : steps ≤ rangeCount start stop step) :
    beforeStop stop.toInt64 step.toInt64 (rangeCounter start step steps) = true ↔
      steps < rangeCount start stop step := by
  have exact := toInt_rangeCounter moves counted
  simp only [beforeStop, gt_iff_lt, Int64.lt_iff_toInt_lt, Int32.toInt_toInt64, Int64.toInt_zero,
    exact]
  rcases lt_or_gt_of_ne (toInt_step_ne_zero moves) with down | up
  · rw [if_neg down.not_gt, decide_eq_true_iff, lt_rangeCount_iff_of_neg down]
  · rw [if_pos up, decide_eq_true_iff, lt_rangeCount_iff_of_pos up]

/-- The numbers of a range are those of the counter where it is counted. -/
theorem rangeNumbers_eq (moves : step ≠ 0) :
    rangeNumbers start stop step =
      (List.range (rangeCount start stop step)).map fun steps =>
        (rangeCounter start step steps).toInt32 := by
  have enough : rangeCount start stop step ≤
      (stop.toInt - start.toInt).natAbs := rangeCount_le_natAbs moves
  have ahead : ∀ steps < rangeCount start stop step,
      beforeStop stop.toInt64 step.toInt64 (rangeCounter start step steps) = true :=
    fun steps counted => (beforeStop_rangeCounter_iff moves counted.le).mpr counted
  have ends : beforeStop stop.toInt64 step.toInt64
      (rangeCounter start step (rangeCount start stop step)) = false := by
    rw [← Bool.not_eq_true, beforeStop_rangeCounter_iff moves le_rfl]
    exact Nat.lt_irrefl _
  rw [rangeNumbers, countFrom_eq enough ahead ends, List.map_map]
  rfl

/-- As integers they are exact. -/
theorem map_toInt_rangeNumbers (moves : step ≠ 0) :
    (rangeNumbers start stop step).map Int32.toInt =
      (List.range (rangeCount start stop step)).map fun steps : ℕ =>
        start.toInt + steps * step.toInt := by
  rw [rangeNumbers_eq moves, List.map_map]
  refine List.map_congr_left fun steps member => ?_
  exact toInt_toInt32_rangeCounter moves (List.mem_range.mp member)

end Counter

namespace TableFunction

variable {arguments : List Value} {start stop step : Int32}

/-- The rows of `RANGE` come behind those that are there, one for each number. -/
theorem generateBehind_range_eq (identity : String) (rows : List Row)
    (limits : RangeLimits arguments start stop step) (moves : step ≠ 0) :
    (range identity).generateBehind rows arguments =
      .ok (rows ++ (rangeNumbers start stop step).map fun number => [.int number]) := by
  have generated : generateRange "RANGE" arguments = rangeRows "RANGE" start stop step := by
    cases limits <;> rfl
  rw [rangeRows, if_neg moves] at generated
  simp [generateBehind, range, generated, Except.map]

/-- The rows of a range come behind those that are there, one for each number from `start` in steps
of `step` before `stop`, in order and exactly. The counter is exact in 64 bits up to the value that
ends the counting, and narrowing it to 32 bits loses nothing where it is counted. -/
theorem generateBehind_range (identity : String) (rows : List Row)
    (limits : RangeLimits arguments start stop step) (moves : step ≠ 0) :
    (∃ numbers : List Int32,
      (range identity).generateBehind rows arguments =
        .ok (rows ++ numbers.map fun number => [.int number]) ∧
      numbers.map Int32.toInt =
        (List.range (rangeCount start stop step)).map fun steps : ℕ =>
          start.toInt + steps * step.toInt) ∧
    (∀ steps ≤ rangeCount start stop step,
      (-2 ^ 63 ≤ start.toInt + steps * step.toInt ∧ start.toInt + steps * step.toInt < 2 ^ 63) ∧
      (rangeCounter start step steps).toInt = start.toInt + steps * step.toInt ∧
      (beforeStop stop.toInt64 step.toInt64 (rangeCounter start step steps) = true ↔
        steps < rangeCount start stop step)) ∧
    ∀ steps < rangeCount start stop step,
      (-2 ^ 31 ≤ start.toInt + steps * step.toInt ∧ start.toInt + steps * step.toInt < 2 ^ 31) ∧
      (rangeCounter start step steps).toInt32.toInt = start.toInt + steps * step.toInt := by
  refine ⟨⟨rangeNumbers start stop step, generateBehind_range_eq identity rows limits moves,
    map_toInt_rangeNumbers moves⟩, fun steps counted => ?_, fun steps counted => ?_⟩
  · exact ⟨fits_of_le_rangeCount moves counted, toInt_rangeCounter moves counted,
      beforeStop_rangeCounter_iff moves counted⟩
  · exact ⟨fits_of_lt_rangeCount moves counted, toInt_toInt32_rangeCounter moves counted⟩

example : rangeNumbers 5 (-1) (-2) = [5, 3, 1] := by decide

/-- From the least integer to the greatest in the greatest steps: the counter ends far beyond the
limit. -/
theorem generateBehind_range_widest :
    (∃ numbers : List Int32,
      (range "RANGE").generateBehind [[.int 7]]
          [.int (-2147483648), .int 2147483647, .int 2147483647] =
        .ok ([.int 7] :: numbers.map fun number => [.int number]) ∧
      numbers.map Int32.toInt = [-2147483648, -1, 2147483646]) ∧
    (rangeCounter (-2147483648) 2147483647 3).toInt = 4294967293 := by
  have rounded : ⌈((2147483647 - -2147483648 : ℤ) : ℚ) / ((2147483647 : ℤ) : ℚ)⌉ = 3 := by
    norm_num
  have count : rangeCount (-2147483648) 2147483647 2147483647 = 3 :=
    congrArg Int.toNat rounded
  obtain ⟨⟨numbers, generated, exact⟩, counters, -⟩ :=
    generateBehind_range "RANGE" [[.int 7]]
      (.startStopStep (-2147483648) 2147483647 2147483647) (by decide)
  rw [count] at exact counters
  refine ⟨⟨numbers, generated, exact.trans (by decide)⟩, ?_⟩
  exact (counters 3 le_rfl).2.1.trans (by decide)

end TableFunction

end Lateral
