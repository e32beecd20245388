import Mathlib.Data.List.Basic
import QLisp.Number.Decimal
import QLisp.Proofs.Number.Rounding

/-!
The shortest decimal of a number reads back.

A decimal of seventeen digits is closer to a number than half the way to its neighbours, so there always
is a decimal that reads back, and the shortest one is found among as many digits.
-/

namespace QLisp.Number

variable {magnitude units : Nat} {power : Int} {d : Decimal}

/-- There are units in one. -/
theorem unitsInOne_pos : 0 < unitsInOne := by
  decide +kernel

/-- Every number is at least the power of ten that is looked for last. -/
theorem unitsInOne_le : unitsInOne ≤ 10 ^ 330 := by
  decide +kernel

/-- A number that is not zero is at least one unit. -/
theorem unitsOf_pos (positive : 0 < magnitude) : 0 < unitsOf magnitude := by
  unfold unitsOf
  split
  · exact positive
  · exact Nat.mul_pos (Nat.add_pos_right _ (by decide)) (Nat.two_pow_pos _)

/-- A number is less than the power of two that its exponent bits allow. -/
theorem unitsOf_lt {exponent : Nat} (bounded : magnitude / exponentWeight ≤ exponent + 1) :
    unitsOf magnitude < 2 ^ (53 + exponent) := by
  have weight : exponentWeight = 2 ^ 52 := rfl
  rw [Nat.pow_add]
  unfold unitsOf
  -- Without exponent bits a number has only its fraction; with some it has a full significand and a
  -- scale.
  split
  · exact Nat.lt_of_lt_of_le (by omega) (Nat.le_mul_of_pos_right _ (Nat.two_pow_pos exponent))
  · have significand : magnitude % exponentWeight + exponentWeight < 2 ^ 53 := by
      have := Nat.mod_lt magnitude (show 0 < exponentWeight by decide)
      omega
    calc (magnitude % exponentWeight + exponentWeight) * 2 ^ (magnitude / exponentWeight - 1)
        ≤ (magnitude % exponentWeight + exponentWeight) * 2 ^ exponent :=
          Nat.mul_le_mul_left _ (Nat.pow_le_pow_right (by decide) (by omega))
      _ < 2 ^ 53 * 2 ^ exponent :=
          Nat.mul_lt_mul_of_pos_right significand (Nat.two_pow_pos exponent)

/-- Only a search that fails at every smaller count ends at a later one. -/
theorem find?_range_first {p : Nat → Bool} {count k : Nat}
    (found : (List.range count).find? p = some k) : p k ∧ ∀ j < k, p j = false := by
  rw [List.find?_range_eq_some] at found
  exact ⟨found.1, fun j less => by simpa using found.2.2 j less⟩

/-- The leading power of ten of a number is one that the number reaches. -/
theorem leadingPower_le (positive : 0 < units) :
    (0 ≤ leadingPower units → unitsInOne * 10 ^ (leadingPower units).natAbs ≤ units) ∧
    (leadingPower units < 0 → unitsInOne ≤ units * 10 ^ (leadingPower units).natAbs) := by
  -- The largest scale that is looked for makes every number whole.
  have wide := unitsInOne_le
  unfold leadingPower
  generalize unitsInOne = one at wide ⊢
  -- Whole numbers are looked for among larger powers, and fractions among smaller ones.
  split
  · -- The first larger power that the number does not reach comes right after the leading one.
    rename_i whole
    have reached : ∀ k : Nat, (∀ j < k, decide (units < one * Nat.pow 10 (j + 1)) = false) →
        one * 10 ^ k ≤ units := by
      intro k unmet
      -- The power before this one was met, or the number is whole.
      cases k with
      | zero => simpa using whole
      | succ j => simpa using unmet j (Nat.lt_succ_self j)
    -- If no power is large enough the last one that was looked at is the leading one.
    split
    · rename_i k found
      exact ⟨fun _ => reached k (find?_range_first found).2, fun negative => by omega⟩
    · rename_i missing
      refine ⟨fun _ => reached _ fun j less => ?_, fun negative => by omega⟩
      simpa using List.find?_eq_none.mp missing j (List.mem_range.mpr less)
  · rename_i fraction
    split
    · rename_i k found
      have met : one ≤ units * 10 ^ k := by simpa using (find?_range_first found).1
      refine ⟨fun nonneg => ?_, fun _ => by simpa using met⟩
      -- At power zero a number that is reached would be whole.
      obtain rfl : k = 0 := by omega
      rw [Nat.pow_zero, Nat.mul_one] at met
      exact absurd met fraction
    -- The smallest power that is looked for is small enough for every number.
    · have last : (-330 : Int).natAbs = 330 := rfl
      refine ⟨fun nonneg => by omega, fun _ => ?_⟩
      rw [last]
      generalize (10 : Nat) ^ 330 = scale at wide ⊢
      exact Nat.le_trans wide (Nat.le_mul_of_pos_left scale positive)

/-- A power of ten that is lower by some places. -/
theorem pow_natAbs_sub {lead : Int} {places : Nat} (negative : lead < 0) :
    10 ^ (lead - places).natAbs = 10 ^ lead.natAbs * 10 ^ places := by
  rw [← Nat.pow_add]
  congr 1
  omega

/-- A number measured from sixteen places below its leading power of ten has that many places. -/
theorem measure_large (positive : 0 < units) :
    10 ^ 16 * (measure units (leadingPower units - 16)).2 ≤
      (measure units (leadingPower units - 16)).1 := by
  -- The leading power is at most the number, so sixteen places more leave that many digits.
  obtain ⟨whole, fraction⟩ := leadingPower_le positive
  generalize leadingPower units = lead at whole fraction
  unfold measure
  generalize unitsInOne = one at whole fraction ⊢
  -- Three cases: the number is below one, or the scale is, or neither is.
  by_cases negative : lead < 0
  · -- The scale is sixteen places finer than what makes the number whole.
    rw [if_pos (by omega)]
    have scale : 10 ^ (lead - 16).natAbs = 10 ^ lead.natAbs * 10 ^ 16 := pow_natAbs_sub negative
    calc 10 ^ 16 * one ≤ 10 ^ 16 * (units * 10 ^ lead.natAbs) :=
          Nat.mul_le_mul_left _ (fraction negative)
      _ = units * 10 ^ (lead - 16).natAbs := by rw [scale]; ring
  -- Otherwise the number is whole in units of its leading power.
  · have met := whole (by omega)
    split
    · -- Between the scale and the leading power there are sixteen places together.
      have scale : 10 ^ (lead - 16).natAbs * 10 ^ lead.natAbs = 10 ^ 16 := by
        rw [← Nat.pow_add]
        congr 1
        omega
      calc 10 ^ 16 * one
          = one * 10 ^ lead.natAbs * 10 ^ (lead - 16).natAbs := by rw [← scale]; ring
        _ ≤ units * 10 ^ (lead - 16).natAbs := Nat.mul_le_mul_right _ met
    -- The leading power is sixteen or more, so both scales are whole.
    · have scale : 10 ^ lead.natAbs = 10 ^ (lead - 16).natAbs * 10 ^ 16 := by
        rw [← Nat.pow_add]
        congr 1
        omega
      calc 10 ^ 16 * (one * 10 ^ (lead - 16).natAbs)
          = one * 10 ^ lead.natAbs := by rw [scale]; ring
        _ ≤ units := met

/-- A measure has a positive denominator. -/
theorem measure_pos (units : Nat) (power : Int) : 0 < (measure units power).2 := by
  have unit := unitsInOne_pos
  unfold measure
  generalize unitsInOne = one at unit ⊢
  split
  · exact unit
  · exact Nat.mul_pos unit (Nat.pow_pos (by decide))

/-- The nearest decimal with many digits is close to the number. -/
theorem close_closest
    (large : 10 ^ 16 * (measure units power).2 ≤ (measure units power).1) :
    Close ((closest units power).ratio.1 * unitsInOne) (closest units power).ratio.2 units := by
  dsimp only [closest]
  obtain ⟨low, high⟩ := nearest_spec (n := (measure units power).1) (measure_pos units power)
  generalize nearest (measure units power).1 (measure units power).2 = digits at low high ⊢
  -- In units of the decimal's own scale the two are at most half a place apart.
  have scaled : (⟨digits, power⟩ : Decimal).ratio.1 * unitsInOne = digits * (measure units power).2 ∧
      units * (⟨digits, power⟩ : Decimal).ratio.2 = (measure units power).1 := by
    unfold Decimal.ratio measure
    generalize unitsInOne = one
    split
    · exact ⟨rfl, rfl⟩
    · exact ⟨by ring, Nat.mul_one _⟩
  rw [Close, scaled.1, scaled.2]
  -- What is left is a bound on a rounded quotient.
  generalize (measure units power).1 = top at *
  have place := measure_pos units power
  generalize (measure units power).2 = bottom at *
  generalize digits * bottom = product at *
  omega

/-- The nearest whole number is at most one above a ratio, which is at most its numerator. -/
theorem nearest_le (n d : Nat) : nearest n d ≤ n + 1 := by
  have floor : n / d ≤ n := Nat.div_le_self n d
  dsimp only [nearest]
  grind

/-- A decimal that is found at a power of ten has that power and reads back. -/
theorem decimalAt?_some (found : decimalAt? magnitude power = some d) :
    d.readsAs magnitude ∧ d.power = power ∧
      d.digits ≤ (measure (unitsOf magnitude) power).1 + 1 := by
  unfold decimalAt? closest at found
  generalize measure (unitsOf magnitude) power = ratio at found ⊢
  have floor : ratio.1 / ratio.2 ≤ ratio.1 := Nat.div_le_self _ _
  -- Rounding moves a quotient by at most one.
  have close := nearest_le ratio.1 ratio.2
  dsimp only at found
  -- The nearest digits are tried first, and then those above and below.
  split at found
  · rename_i reads
    cases found
    exact ⟨reads, rfl, close⟩
  · split at found
    · rename_i reads
      cases found
      exact ⟨reads, rfl, Nat.le_succ_of_le floor⟩
    · split at found
      · rename_i reads
        cases found
        exact ⟨reads, rfl, Nat.succ_le_succ floor⟩
      · cases found

/-- Where the nearest decimal reads back, it is the one that is found. -/
theorem decimalAt?_closest (reads : (closest (unitsOf magnitude) power).readsAs magnitude) :
    decimalAt? magnitude power = some (closest (unitsOf magnitude) power) :=
  if_pos reads

/-- A decimal close to a number reads back as that number. -/
theorem readsAs_of_close (close : Close (d.ratio.1 * unitsInOne) d.ratio.2 (unitsOf magnitude))
    (finite : magnitude < infiniteMagnitude) : d.readsAs magnitude := by
  rw [Decimal.readsAs, roundRatio, close.roundUnits_eq finite, decide_eq_true rfl]

/-- The shortest decimal of a number is one that is found not far below the leading power of ten. -/
theorem shortest_cases (positive : 0 < magnitude) (finite : magnitude < infiniteMagnitude) :
    ∃ n < 17, decimalAt? magnitude (leadingPower (unitsOf magnitude) - (n : Nat)) =
      some (shortest magnitude) := by
  dsimp only [shortest]
  cases search : (List.range 17).findSome?
      (fun n : Nat => decimalAt? magnitude (leadingPower (unitsOf magnitude) - n)) with
  | some found =>
    obtain ⟨n, member, here⟩ := List.exists_of_findSome?_eq_some search
    refine ⟨n, List.mem_range.mp member, ?_⟩
    rw [here, Option.getD_some]
  | none =>
    -- With seventeen digits the nearest decimal reads back, so the search does not fail.
    have close := close_closest (measure_large (unitsOf_pos positive))
    exact ⟨16, by decide, decimalAt?_closest (readsAs_of_close close finite)⟩

/-- The leading power of ten of a number is one of those that are looked for. -/
theorem leadingPower_natAbs_le (units : Nat) : (leadingPower units).natAbs ≤ 330 := by
  have inside : ∀ {count k : Nat} {p : Nat → Bool}, (List.range count).find? p = some k → k < count :=
    fun found => List.mem_range.mp (List.mem_of_find?_eq_some found)
  unfold leadingPower
  -- The powers that are looked for are counted, up and down, and there is a last one.
  split
  -- A whole number has the power before the first one that it does not reach.
  · split
    · rename_i k found
      have := inside found
      omega
    · decide
  · split
    · rename_i k found
      have := inside found
      omega
    · decide

/-- The shortest decimal of a number has not too many digits, and a power near the middle. -/
theorem shortest_bounds (positive : 0 < magnitude) (finite : magnitude < infiniteMagnitude) :
    (shortest magnitude).power.natAbs ≤ 346 ∧
      ∃ places ≤ 2445, (shortest magnitude).digits < 10 ^ places := by
  -- The digits were found at one of the powers below the leading one.
  obtain ⟨n, less, found⟩ := shortest_cases positive finite
  obtain ⟨_, here, digits⟩ := decimalAt?_some found
  have lead := leadingPower_natAbs_le (unitsOf magnitude)
  have near : (leadingPower (unitsOf magnitude) - (n : Nat)).natAbs ≤ 346 := by omega
  refine ⟨here ▸ near, ?_⟩
  -- That leaves a bound on the digits themselves.
  generalize leadingPower (unitsOf magnitude) - (n : Nat) = power at near digits
  -- The number is at most as many units as the largest one, and the scale is a known one.
  obtain ⟨size, bounded, small⟩ : ∃ size ≤ 2098, unitsOf magnitude < 2 ^ size := by
    have weight : infiniteMagnitude = 2047 * exponentWeight := rfl
    rw [weight, Nat.mul_comm] at finite
    have := Nat.div_lt_of_lt_mul finite
    exact ⟨53 + 2045, le_rfl, unitsOf_lt (by omega)⟩
  have units : unitsOf magnitude ≤ 10 ^ size :=
    Nat.le_trans small.le (Nat.pow_le_pow_left (by decide) _)
  -- However it is measured, a number is no more than its units times the scale.
  have measured : (measure (unitsOf magnitude) power).1 ≤ 10 ^ size * 10 ^ power.natAbs := by
    unfold measure
    split
    · exact Nat.mul_le_mul_right _ units
    · exact Nat.le_trans units (Nat.le_mul_of_pos_right _ (Nat.pow_pos (by decide)))
  rw [← Nat.pow_add] at measured
  have room : 1 ≤ 10 ^ (size + power.natAbs) := Nat.pow_pos (by decide)
  -- The digits are at most one more than the quotient.
  refine ⟨size + power.natAbs + 1, by omega, ?_⟩
  rw [Nat.pow_succ]
  omega

/-- The shortest decimal of a number reads back as the number. -/
theorem shortest_readsAs (positive : 0 < magnitude) (finite : magnitude < infiniteMagnitude) :
    (shortest magnitude).readsAs magnitude := by
  obtain ⟨n, _, found⟩ := shortest_cases positive finite
  exact (decimalAt?_some found).1

end QLisp.Number
