import QLisp.Number.Arithmetic
import QLisp.Proofs.Number.Decimal
import QLisp.Proofs.Number.Order

/-!
Whole numbers are exact.

An integer that is a significand times a power of two is a number without rounding. An integer below
2^53 is a significand of its own, so counting up by one from such a number is exact too.
-/

namespace QLisp.Number

variable {n : Nat}

/-- A natural number is a significand of at most 53 bits times a power of two. -/
def Representable (n : Nat) : Prop :=
  ∃ significand shift, significand < 2 ^ 53 ∧ n = significand * 2 ^ shift

/-- A natural number of at most 53 bits is a significand of its own. -/
theorem representable_of_lt (small : n < 2 ^ 53) : Representable n :=
  ⟨n, 0, small, (Nat.mul_one n).symm⟩

/-- The number of units in one is a power of two, whose exponent may be given in any form. -/
theorem unitsInOne_eq {exponent : Nat} (form : 1074 = exponent) : unitsInOne = 2 ^ exponent :=
  congrArg (Nat.pow 2) form

/-- A positive number of the form of a significand below 2^64 is a full significand times a power. -/
theorem exists_significand (positive : 0 < n) (representable : Representable n) (small : n < 2 ^ 64) :
    ∃ step significand, step ≤ 1086 ∧ 2 ^ 52 ≤ significand ∧ significand < 2 ^ 53 ∧
      significand * 2 ^ step = n * unitsInOne := by
  -- The part has at most fifty-three bits and is moved up by the shift.
  obtain ⟨part, shift, short, rfl⟩ := representable
  have some : 0 < part := Nat.pos_of_mul_pos_right positive
  have lead : part.log2 ≤ 52 := Nat.le_of_lt_succ ((Nat.log2_lt some.ne').mpr short)
  have low : 2 ^ part.log2 ≤ part := (Nat.le_log2 some.ne').mp (Nat.le_refl _)
  have high : part < 2 ^ (part.log2 + 1) := (Nat.log2_lt some.ne').mp (Nat.lt_succ_self _)
  -- The leading bit of the part is at its logarithm, and the next one is not set.
  have unit : 0 < 2 ^ (52 - part.log2) := Nat.two_pow_pos _
  -- The leading bit of the number is below the sixty-fourth.
  have leading : part.log2 + shift < 64 := by
    refine (Nat.pow_lt_pow_iff_right (by decide : 1 < 2)).mp ?_
    calc 2 ^ (part.log2 + shift) = 2 ^ part.log2 * 2 ^ shift := Nat.pow_add ..
      _ ≤ part * 2 ^ shift := Nat.mul_le_mul_right _ low
      _ < 2 ^ 64 := small
  -- The significand is moved up until its leading bit is the one that counts.
  refine ⟨1022 + part.log2 + shift, part * 2 ^ (52 - part.log2), by omega, ?_, ?_, ?_⟩
  · calc 2 ^ 52 = 2 ^ part.log2 * 2 ^ (52 - part.log2) := by rw [← Nat.pow_add]; congr 1; omega
      _ ≤ part * 2 ^ (52 - part.log2) := Nat.mul_le_mul_right _ low
  · calc part * 2 ^ (52 - part.log2) < 2 ^ (part.log2 + 1) * 2 ^ (52 - part.log2) :=
          Nat.mul_lt_mul_of_pos_right high unit
      _ = 2 ^ 53 := by rw [← Nat.pow_add]; congr 1; omega
  -- Moving the significand down again gives the number it stands for.
  · rw [unitsInOne_eq (show 1074 = (52 - part.log2) + (1022 + part.log2) by omega), Nat.mul_assoc,
      Nat.mul_assoc, ← Nat.pow_add, ← Nat.pow_add]
    congr 2
    omega

/-- A number of the form of a significand is finite, and stands for as many units as it should. -/
theorem roundRatio_representable (representable : Representable n) (small : n < 2 ^ 64) :
    roundRatio n 1 < infiniteMagnitude ∧ unitsOf (roundRatio n 1) = n * unitsInOne := by
  -- Zero is itself, and any other number has a significand.
  rcases Nat.eq_zero_or_pos n with rfl | positive
  · rw [roundRatio_zero, Nat.zero_mul]
    exact ⟨by decide, rfl⟩
  obtain ⟨step, significand, bounded, full, short, same⟩ :=
    exists_significand positive representable small
  have units : 0 < significand * 2 ^ step := Nat.mul_pos (by omega) (Nat.two_pow_pos step)
  -- A whole number is close to itself, so it is not rounded.
  have close : Close (n * unitsInOne) 1 (significand * 2 ^ step) := by
    rw [Close, ← same, Nat.mul_one]
    omega
  have weight : exponentWeight = 2 ^ 52 := rfl
  have limit : infiniteMagnitude = 2047 * 2 ^ 52 := rfl
  -- The magnitude of the rounded number is below infinity.
  have finite : step * exponentWeight + significand < infiniteMagnitude := by
    have steps : step * 2 ^ 52 ≤ 1086 * 2 ^ 52 := Nat.mul_le_mul_right _ bounded
    rw [weight]
    omega
  have rounded : roundRatio n 1 = step * exponentWeight + significand := by
    rw [roundRatio, close.roundUnits_large full short]
    exact Nat.min_eq_right finite.le
  -- The leading bit of the significand counts as one more in the exponent.
  have parts : step * exponentWeight + significand =
      (significand - exponentWeight) + exponentWeight * (step + 1) := by
    rw [Nat.mul_succ, Nat.mul_comm exponentWeight step]
    omega
  have fraction : (step * exponentWeight + significand) % exponentWeight =
      significand - exponentWeight := by
    rw [parts, Nat.add_mul_mod_self_left]
    exact Nat.mod_eq_of_lt (by omega)
  -- The exponent is one more than the step, since the leading bit is counted.
  have exponent : (step * exponentWeight + significand) / exponentWeight = step + 1 := by
    rw [parts, Nat.add_mul_div_left _ _ (by decide), Nat.div_eq_of_lt (by omega), Nat.zero_add]
  rw [rounded]
  refine ⟨finite, ?_⟩
  rw [unitsOf, if_neg (by omega), fraction, exponent, Nat.add_sub_cancel,
    Nat.sub_add_cancel (by omega)]
  exact same

/-- An integer below 2^53 is finite, and stands for as many units as it should. -/
theorem roundRatio_whole (small : n < 2 ^ 53) :
    roundRatio n 1 < infiniteMagnitude ∧ unitsOf (roundRatio n 1) = n * unitsInOne :=
  roundRatio_representable (representable_of_lt small) (Nat.lt_trans small (by decide))

/-- A sign and a magnitude are held side by side. -/
theorem toNat_ofMagnitude {magnitude : Nat} (small : magnitude < signWeight) (negative : Bool) :
    (ofMagnitude negative magnitude).bits.toNat = magnitude + if negative then signWeight else 0 := by
  have weight : signWeight = 2 ^ 63 := rfl
  have whole : magnitude + (if negative then signWeight else 0) < 2 ^ 64 := by
    split <;> omega
  simpa [ofMagnitude] using Nat.mod_eq_of_lt whole

/-- The sign is read back. -/
theorem negative_ofMagnitude {magnitude : Nat} (small : magnitude < signWeight) (negative : Bool) :
    (ofMagnitude negative magnitude).negative = negative := by
  rw [Number.negative, toNat_ofMagnitude small]
  cases negative
  · simpa using small
  · simp

/-- The magnitude is read back. -/
theorem magnitude_ofMagnitude {magnitude : Nat} (small : magnitude < signWeight) (negative : Bool) :
    (ofMagnitude negative magnitude).magnitude = magnitude := by
  rw [Number.magnitude, toNat_ofMagnitude small]
  cases negative <;> simp [Nat.mod_eq_of_lt small]

/-- An integer of the form of a significand is finite and stands for as many units as it should. -/
theorem ofInt_exact {k : Int} (representable : Representable k.natAbs) (small : k.natAbs < 2 ^ 64) :
    (ofInt k).isFinite ∧ (ofInt k).negative = decide (k < 0) ∧
      (ofInt k).signedUnits = k * unitsInOne := by
  obtain ⟨finite, units⟩ := roundRatio_representable representable small
  have held : roundRatio k.natAbs 1 < signWeight := Nat.lt_trans finite (by decide)
  have sign : (ofInt k).negative = decide (k < 0) := negative_ofMagnitude held _
  have bits : (ofInt k).magnitude = roundRatio k.natAbs 1 := magnitude_ofMagnitude held _
  refine ⟨by rw [isFinite, bits]; exact decide_eq_true finite, sign, ?_⟩
  rw [signedUnits, sign, Number.units, bits, units, Nat.cast_mul]
  -- The sign is put back in front of the absolute value.
  by_cases below : k < 0
  · rw [if_pos (decide_eq_true below), ← Int.neg_mul, Int.ofNat_natAbs_of_nonpos below.le, Int.neg_neg]
  · rw [if_neg (by simpa using below), Int.natAbs_of_nonneg (by omega)]

/-- An integer below 2^53 has the bits of a positive finite number. -/
theorem toNat_ofInt (small : n < 2 ^ 53) : (ofInt n).bits.toNat = roundRatio n 1 := by
  have finite := (roundRatio_whole small).1
  have positive : decide ((n : Int) < 0) = false := decide_eq_false (by omega)
  rw [ofInt, positive, Int.natAbs_natCast, toNat_ofMagnitude (Nat.lt_trans finite (by decide)),
    if_neg Bool.false_ne_true, Nat.add_zero]

/-- The magnitude of an integer below 2^53. -/
theorem magnitude_ofInt (small : n < 2 ^ 53) : (ofInt n).magnitude = roundRatio n 1 := by
  have finite := (roundRatio_whole small).1
  rw [magnitude, toNat_ofInt small]
  exact Nat.mod_eq_of_lt (Nat.lt_trans finite (by decide))

/-- An integer below 2^53 stands for as many units as it should, and is finite. -/
theorem signedUnits_ofInt (small : n < 2 ^ 53) :
    (ofInt n).signedUnits = (n * unitsInOne : Nat) ∧ (ofInt n).isNaN = false ∧
      (ofInt n).isInfinite = false := by
  have finite := (roundRatio_whole small).1
  have exact := (ofInt_exact (k := n) (representable_of_lt small) (Nat.lt_trans small (by decide))).2.2
  refine ⟨by rw [exact, Nat.cast_mul], ?_, ?_⟩
  · rw [isNaN, magnitude_ofInt small]
    exact decide_eq_false (Nat.not_lt.mpr finite.le)
  · rw [isInfinite, magnitude_ofInt small]
    exact decide_eq_false finite.ne

/-- Counting up by one is exact below 2^53. -/
theorem add_one (small : n < 2 ^ 53) : (ofInt 1).add (ofInt n) = ofInt (n + 1 : Nat) := by
  obtain ⟨one, number, bounded⟩ := @signedUnits_ofInt 1 (by decide)
  obtain ⟨units, number', bounded'⟩ := signedUnits_ofInt small
  have positive := unitsInOne_pos
  -- Neither is infinite or no number, so the units are added.
  have sum : ((1 * unitsInOne : Nat) : Int) + (n * unitsInOne : Nat) = ((n + 1) * unitsInOne : Nat) := by
    rw [Nat.add_mul]
    omega
  have some : 0 < (n + 1) * unitsInOne := Nat.mul_pos (Nat.succ_pos n) positive
  have cast : ofInt ((1 : Nat) : Int) = ofInt 1 := rfl
  have nonzero : (((n + 1) * unitsInOne : Nat) : Int) ≠ 0 := by omega
  have sign : decide ((((n + 1) * unitsInOne : Nat) : Int) < 0) = false := decide_eq_false (by omega)
  have sign' : decide (((n + 1 : Nat) : Int) < 0) = false := decide_eq_false (by omega)
  -- The sum is positive, and has the sign of the units.
  have whole : ofSignedUnits ((n + 1) * unitsInOne : Nat) = ofInt (n + 1 : Nat) := by
    rw [ofSignedUnits, ofInt, sign, sign', Int.natAbs_natCast, Int.natAbs_natCast, roundRatio]
  rw [cast] at one number bounded
  rw [add, number, number', bounded, bounded', one, units, sum, ← whole]
  simp only [Bool.or_self, Bool.false_eq_true, if_false, if_neg nonzero]

/-- Minus one stands for a unit below zero. -/
theorem signedUnits_neg_one : (ofInt 1).neg.signedUnits = -(unitsInOne : Int) ∧
    (ofInt 1).neg.isNaN = false ∧ (ofInt 1).neg.isInfinite = false := by
  -- One with its sign turned is a number with the same magnitude.
  have magnitude : (ofInt 1).neg.magnitude = (ofInt 1).magnitude := by decide +kernel
  have negative : (ofInt 1).neg.negative = true := by decide +kernel
  obtain ⟨units, number, bounded⟩ := @signedUnits_ofInt 1 (by decide)
  have cast : ofInt ((1 : Nat) : Int) = ofInt 1 := rfl
  -- All that differs from one is the sign.
  have positive : (ofInt 1).negative = false := by decide +kernel
  rw [cast] at units number bounded
  rw [signedUnits, positive, Nat.one_mul] at units
  refine ⟨?_, ?_, ?_⟩
  -- What is negative has the opposite of its units.
  · rw [signedUnits, negative, if_pos rfl, Number.units, magnitude]
    exact congrArg (-·) units
  · rw [isNaN, magnitude]
    exact number
  · rw [isInfinite, magnitude]
    exact bounded

/-- Counting down by one is exact below 2^53. -/
theorem sub_one (small : n + 1 < 2 ^ 53) : (ofInt (n + 1 : Nat)).sub (ofInt 1) = ofInt n := by
  obtain ⟨one, number, bounded⟩ := signedUnits_neg_one
  obtain ⟨units, number', bounded'⟩ := signedUnits_ofInt small
  -- One unit less is left, which may be none.
  have difference : (((n + 1) * unitsInOne : Nat) : Int) + -(unitsInOne : Int) = (n * unitsInOne : Nat) := by
    -- The units of a successor are those of the number and one more.
    rw [Nat.add_mul]
    omega
  rw [sub, add, number, number', bounded, bounded', one, units, difference]
  simp only [Bool.or_self, Bool.false_eq_true, if_false]
  -- The result is zero or positive, and keeps the sign of the other number.
  rcases Nat.eq_zero_or_pos n with rfl | some
  · -- The larger number is positive, so the zero is.
    have sign : (ofInt (0 + 1 : Nat)).negative = false := by decide +kernel
    rw [if_pos (by simp), sign]
    decide +kernel
  -- A positive number keeps its sign.
  · have positive : 0 < n * unitsInOne := Nat.mul_pos some unitsInOne_pos
    have sign : decide (((n * unitsInOne : Nat) : Int) < 0) = false := decide_eq_false (by omega)
    have sign' : decide ((n : Int) < 0) = false := decide_eq_false (by omega)
    rw [if_neg (by omega), ofSignedUnits, ofInt, sign, sign', Int.natAbs_natCast, Int.natAbs_natCast,
      roundRatio]

/-- An integer below 2^53 is on the line as far up as its bits tell, and above zero unless it is zero. -/
theorem rank_ofInt (small : n < 2 ^ 53) :
    (ofInt n).rank = roundRatio n 1 ∧ (0 < roundRatio n 1 ↔ 0 < n) := by
  obtain ⟨finite, units⟩ := roundRatio_whole small
  have positive : (ofInt n).negative = false := by
    rw [negative, toNat_ofInt small]
    exact decide_eq_false (Nat.not_le.mpr (Nat.lt_trans finite (by decide)))
  -- A positive number is as far up as its bits tell, since these are in order.
  refine ⟨?_, ?_⟩
  -- A number that is not negative is as far up as its magnitude.
  · rw [rank, positive, magnitude_ofInt small]
    rfl
  · rcases Nat.eq_zero_or_pos n with rfl | some
    · simp [roundRatio_zero]
    · -- No bits would stand for no units.
      refine iff_of_true (Nat.pos_of_ne_zero fun none => ?_) some
      rw [none] at units
      have more : 0 < n * unitsInOne := Nat.mul_pos some unitsInOne_pos
      exact absurd units (Nat.ne_of_lt more)

/-- A number that is the same as an integer below 2^53 is that integer, unless both are zeros. -/
theorem eq_ofInt {x : Number} (equal : x.equal (ofInt n)) (positive : 0 < n) (small : n < 2 ^ 53) :
    x = ofInt n := by
  have above := (rank_ofInt small).2.mpr positive
  have nonzero : (ofInt n).magnitude ≠ 0 := by
    rw [magnitude_ofInt small]
    exact Nat.ne_of_gt above
  rw [equal_comm] at equal
  exact (eq_of_equal equal nonzero).symm

/-- Of the numbers that are the same as an integer below 2^53 those above zero are above zero. -/
theorem order_zero {x : Number} (equal : x.equal (ofInt n)) (small : n < 2 ^ 53) :
    x.order (ofInt 0) = .gt ↔ 0 < n := by
  obtain ⟨rank, above⟩ := rank_ofInt small
  have zero : (ofInt 0).isNaN = false ∧ (ofInt 0).rank = 0 := by decide +kernel
  simp only [Number.equal, Bool.and_eq_true, Bool.not_eq_true', beq_iff_eq] at equal
  rw [order, equal.1.1, zero.1]
  simp only [zero.2, equal.2, rank, compare_gt_iff_gt, ← above]
  omega

end QLisp.Number
