import Mathlib.Tactic.Linarith
import Mathlib.Tactic.Ring
import QLisp.Number.Rounding

/-!
Rounding to the nearest number.

A ratio is rounded by its value alone, and one that is close enough to a number is rounded to it. The
distance that is close enough is a small part of the number, so it can be compared with the error of a
decimal of sixteen digits or more.
-/

namespace QLisp.Number

variable {n d : Nat}

/-- The whole number nearest to a ratio is at most half away from it. -/
theorem nearest_spec (positive : 0 < d) :
    2 * (nearest n d * d) ≤ 2 * n + d ∧ 2 * n ≤ 2 * (nearest n d * d) + d := by
  -- A quotient and a remainder make up the number.
  have whole : n / d * d + n % d = n := Nat.div_add_mod' n d
  have small : n % d < d := Nat.mod_lt n positive
  have parity : n / d % 2 = 0 ∨ n / d % 2 = 1 := Nat.mod_two_eq_zero_or_one _
  have next : (n / d + 1) * d = n / d * d + d := Nat.succ_mul _ _
  -- The remainder is below half, above it, or exactly half, and then the even one is taken.
  dsimp only [nearest]
  split
  -- The bounds are those of the quotient, which differs by at most one from the rounded one.
  · omega
  · split
    · omega
    · rcases parity with even | odd
      · rw [even, Nat.add_zero]
        omega
      · rw [odd]
        omega

/-- A whole number that is less than half away from a ratio is the nearest to it. -/
theorem nearest_eq {k : Nat} (above : 2 * n < 2 * (k * d) + d) (below : 2 * (k * d) < 2 * n + d) :
    nearest n d = k := by
  have positive : 0 < d := by omega
  -- The rounded quotient is within half a divisor.
  obtain ⟨low, high⟩ := nearest_spec (n := n) positive
  -- Two whole numbers at such distances of one ratio differ by less than one.
  refine Nat.le_antisymm ?_ ?_
  · have bound : nearest n d * d < (k + 1) * d := by
      rw [Nat.succ_mul]
      omega
    exact Nat.le_of_lt_succ (Nat.lt_of_mul_lt_mul_right bound)
  · have bound : k * d < (nearest n d + 1) * d := by
      rw [Nat.succ_mul]
      omega
    exact Nat.le_of_lt_succ (Nat.lt_of_mul_lt_mul_right bound)

/-- The nearest whole number is the same for a ratio in other terms. -/
theorem nearest_mul {k : Nat} (positive : 0 < k) (n d : Nat) :
    nearest (k * n) (k * d) = nearest n d := by
  have left : 2 * (k * (n % d)) = k * (2 * (n % d)) := Nat.mul_left_comm ..
  simp only [nearest, Nat.mul_div_mul_left n d positive, Nat.mul_mod_mul_left, left,
    Nat.mul_lt_mul_left positive]

/-- A ratio of units in other terms is rounded in the same way. -/
theorem roundUnits_mul {k : Nat} (positive : 0 < k) (n d : Nat) :
    roundUnits (k * n) (k * d) = roundUnits n d := by
  simp only [roundUnits, Nat.mul_div_mul_left n d positive, Nat.mul_assoc, nearest_mul positive]

/-- Equal ratios are rounded in the same way. -/
theorem roundRatio_congr {n' d' : Nat} (positive : 0 < d) (positive' : 0 < d')
    (same : n * d' = n' * d) : roundRatio n d = roundRatio n' d' := by
  -- Both are brought to the product of the denominators.
  calc roundUnits (n * unitsInOne) d
      = roundUnits (d' * (n * unitsInOne)) (d' * d) := (roundUnits_mul positive' _ _).symm
    _ = roundUnits (d * (n' * unitsInOne)) (d * d') := by
      rw [← Nat.mul_assoc, ← Nat.mul_assoc, Nat.mul_comm d' n, same, Nat.mul_comm n' d,
        Nat.mul_comm d' d]
    _ = roundUnits (n' * unitsInOne) d' := roundUnits_mul positive _ _

/-- A ratio that is zero is rounded to zero. -/
theorem roundRatio_zero (d : Nat) : roundRatio 0 d = 0 := by
  simp [roundRatio, roundUnits, spacing, nearest]

/-- The distance within which a ratio of units is rounded to a number: a small part of the number. -/
def Close (n d units : Nat) : Prop :=
  2 ^ 54 * n < 2 ^ 54 * (units * d) + units * d ∧ 2 ^ 54 * (units * d) < 2 ^ 54 * n + units * d

/-- A significand is the whole number nearest to a ratio that is close to it. -/
theorem Close.nearest_eq {significand : Nat} (close : Close n d significand)
    (short : significand < 2 ^ 53) : nearest n d = significand := by
  obtain ⟨above, below⟩ := close
  have positive : 0 < d := by
    rcases Nat.eq_zero_or_pos d with rfl | positive
    · simp at above
    · exact positive
  have bound : significand * d < 2 ^ 53 * d := Nat.mul_lt_mul_of_pos_right short positive
  apply Number.nearest_eq <;> omega

/-- The power of two between the neighbours of a number whose leading bit is known. -/
theorem spacing_eq {units step : Nat} (low : 2 ^ (52 + step) ≤ units)
    (high : units < 2 ^ (53 + step)) : spacing units = step := by
  have nonzero : units ≠ 0 := by
    have := Nat.two_pow_pos (52 + step)
    omega
  -- The leading bit is fixed by the two bounds.
  have leading : units.log2 = 52 + step := by
    refine Nat.le_antisymm ?_ ((Nat.le_log2 nonzero).mpr low)
    have below : units.log2 < 53 + step := (Nat.log2_lt nonzero).mpr high
    omega
  rw [spacing, leading, fractionBits, Nat.add_sub_cancel_left]

/-- Numbers with few bits are one unit apart. -/
theorem spacing_small {units : Nat} (small : units < 2 ^ 53) : spacing units = 0 := by
  rcases Nat.eq_zero_or_pos units with rfl | positive
  · rfl
  · have below : units.log2 < 53 := (Nat.log2_lt (Nat.ne_of_gt positive)).mpr small
    rw [spacing, fractionBits]
    omega

/-- A ratio is rounded in steps of its spacing. -/
theorem roundUnits_eq {step significand : Nat} (spaced : spacing (n / d) = step)
    (rounded : nearest n (d * 2 ^ step) = significand) :
    roundUnits n d = Nat.min infiniteMagnitude (step * exponentWeight + significand) := by
  rw [roundUnits, spaced]
  exact congrArg (fun r => Nat.min infiniteMagnitude (step * exponentWeight + r)) rounded

/-- Only a ratio with a denominator is close to a number. -/
theorem Close.positive {units : Nat} (close : Close n d units) : 0 < d := by
  rcases Nat.eq_zero_or_pos d with rfl | positive
  · simp [Close] at close
  · exact positive

/-- A ratio close to a number with few bits is rounded to it. -/
theorem Close.roundUnits_small {units : Nat} (close : Close n d units) (short : units < 2 ^ 53) :
    roundUnits n d = Nat.min infiniteMagnitude units := by
  have positive := close.positive
  -- The ratio has few bits too, so it is rounded to whole units.
  have bound : n / d < 2 ^ 53 := by
    rw [Nat.div_lt_iff_lt_mul positive]
    have most : (units + 1) * d ≤ 2 ^ 53 * d := Nat.mul_le_mul_right d short
    have less : units * d < 2 ^ 53 * d := Nat.mul_lt_mul_of_pos_right short positive
    obtain ⟨above, _⟩ := close
    rw [Nat.succ_mul] at most
    omega
  -- The quotient in whole units is the number itself.
  have rounded : nearest n (d * 2 ^ 0) = units := by
    rw [Nat.pow_zero, Nat.mul_one]
    exact close.nearest_eq short
  simpa using roundUnits_eq (spacing_small bound) rounded

/-- A ratio close to the least number with its exponent, and below it, is rounded to it. -/
theorem Close.roundUnits_least {step : Nat} (positive : 0 < d)
    (close : Close n (d * 2 ^ step) (2 ^ 52)) (under : n < 2 ^ 52 * (d * 2 ^ step)) :
    roundUnits n d = Nat.min infiniteMagnitude (step * exponentWeight + 2 ^ 52) := by
  have unit : 0 < d * 2 ^ step := Nat.mul_pos positive (Nat.two_pow_pos step)
  -- The ratio is below the power, so its spacing is at most that of the step.
  have low : n / d < 2 ^ (52 + step) := by
    have scale : 2 ^ (52 + step) * d = 2 ^ 52 * (d * 2 ^ step) := by ring
    rw [Nat.div_lt_iff_lt_mul positive, scale]
    exact under
  obtain ⟨above, below⟩ := close
  -- The spacing depends on whether there is a narrower step.
  cases step with
  -- At the smallest exponent the steps below the number are no narrower.
  | zero =>
    have few : n / d < 2 ^ 53 := by omega
    have rounded : nearest n (d * 2 ^ 0) = 2 ^ 52 :=
      Number.nearest_eq (by omega) (by omega)
    exact roundUnits_eq (spacing_small few) rounded
  -- In steps of half the size the ratio is rounded to twice the significand.
  | succ step =>
    have half : d * 2 ^ (step + 1) = 2 * (d * 2 ^ step) := by ring
    rw [half] at above below under unit
    have near : 2 ^ (52 + step) ≤ n / d := by
      have scale : 2 ^ (52 + step) * d = 2 ^ 52 * (d * 2 ^ step) := by ring
      rw [Nat.le_div_iff_mul_le positive, scale]
      omega
    have rounded : nearest n (d * 2 ^ step) = 2 ^ 53 :=
      Number.nearest_eq (by omega) (by omega)
    have below : n / d < 2 ^ (53 + step) := by
      have same : 52 + (step + 1) = 53 + step := by omega
      rwa [same] at low
    rw [roundUnits_eq (spacing_eq near below) rounded]
    -- The bit that is carried makes up for the smaller exponent.
    have carry : step * exponentWeight + 2 ^ 53 = (step + 1) * exponentWeight + 2 ^ 52 := by
      have weight : exponentWeight = 2 ^ 52 := rfl
      rw [weight, Nat.succ_mul]
      omega
    rw [carry]

/-- A ratio close to a number with a full significand is rounded to it. -/
theorem Close.roundUnits_large {significand step : Nat}
    (close : Close n d (significand * 2 ^ step)) (full : 2 ^ 52 ≤ significand)
    (short : significand < 2 ^ 53) :
    roundUnits n d = Nat.min infiniteMagnitude (step * exponentWeight + significand) := by
  have positive := close.positive
  have unit : 0 < d * 2 ^ step := Nat.mul_pos positive (Nat.two_pow_pos step)
  -- In steps of the number's own, the ratio is close to the significand.
  have scaled : Close n (d * 2 ^ step) significand := by
    have same : significand * 2 ^ step * d = significand * (d * 2 ^ step) := by ring
    rwa [Close, same] at close
  -- It rounds to less than the next power of two, so it is below that.
  have high : n / d < 2 ^ (53 + step) := by
    have most : (significand + 1) * (d * 2 ^ step) ≤ 2 ^ 53 * (d * 2 ^ step) :=
      Nat.mul_le_mul_right _ short
    have scale : 2 ^ (53 + step) * d = 2 ^ 53 * (d * 2 ^ step) := by ring
    obtain ⟨above, _⟩ := scaled
    rw [Nat.div_lt_iff_lt_mul positive, scale]
    rw [Nat.succ_mul] at most
    omega
  have scale : 2 ^ (52 + step) * d = 2 ^ 52 * (d * 2 ^ step) := by ring
  have least : 2 ^ 52 * (d * 2 ^ step) ≤ significand * (d * 2 ^ step) :=
    Nat.mul_le_mul_right _ full
  -- Either the ratio is at least the power, and the step is its own.
  by_cases low : 2 ^ (52 + step) ≤ n / d
  · exact roundUnits_eq (spacing_eq low high) (scaled.nearest_eq short)
  · -- The number is the least with its exponent, and the ratio is below it, in narrower steps.
    have under : n < 2 ^ 52 * (d * 2 ^ step) := by
      rw [Nat.not_le, Nat.div_lt_iff_lt_mul positive, scale] at low
      exact low
    obtain ⟨above, below⟩ := scaled
    -- A larger significand is more than half a step above the ratio, which is too far.
    obtain rfl : significand = 2 ^ 52 := by
      by_contra other
      have more : (2 ^ 52 + 1) * (d * 2 ^ step) ≤ significand * (d * 2 ^ step) :=
        Nat.mul_le_mul_right _ (by omega)
      have less : significand * (d * 2 ^ step) < 2 ^ 53 * (d * 2 ^ step) :=
        Nat.mul_lt_mul_of_pos_right short unit
      rw [Nat.succ_mul] at more
      omega
    exact Close.roundUnits_least positive ⟨above, below⟩ under

/-- A ratio close to a finite number of units is rounded to the bits of that number. -/
theorem Close.roundUnits_eq {magnitude : Nat} (close : Close n d (unitsOf magnitude))
    (finite : magnitude < infiniteMagnitude) : roundUnits n d = magnitude := by
  have weight : exponentWeight = 2 ^ 52 := rfl
  -- The cap makes no difference, since the number is finite.
  have capped : Nat.min infiniteMagnitude magnitude = magnitude :=
    Nat.min_eq_right (Nat.le_of_lt finite)
  unfold unitsOf at close
  -- Numbers without exponent bits are counted in the smallest units.
  split at close
  · rw [close.roundUnits_small (by omega), capped]
  · -- The exponent bits are at least one, and the significand has its leading bit.
    have parts : magnitude / exponentWeight * exponentWeight + magnitude % exponentWeight =
      magnitude := Nat.div_add_mod' _ _
    have small : magnitude % exponentWeight < exponentWeight := Nat.mod_lt _ (by decide)
    have exponent : 1 ≤ magnitude / exponentWeight := by
      rw [Nat.le_div_iff_mul_le (by decide)]
      omega
    have whole : (magnitude / exponentWeight - 1) * exponentWeight +
        (magnitude % exponentWeight + exponentWeight) = magnitude := by
      obtain ⟨power, same⟩ : ∃ power, magnitude / exponentWeight = power + 1 :=
        ⟨_, (Nat.sub_add_cancel exponent).symm⟩
      rw [same, Nat.succ_mul] at parts
      rw [same, Nat.add_sub_cancel]
      omega
    -- The rounded units are the magnitude again.
    have rounded := Close.roundUnits_large (n := n) (d := d) close (by omega) (by omega)
    rw [rounded, whole, capped]

end QLisp.Number
