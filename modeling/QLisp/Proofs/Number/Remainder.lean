import QLisp.Proofs.Number.Whole

/-!
Remainders are exact.

Dropping the fraction of a number leaves an integer that is a significand times a power of two, and the
remainder of two such integers is one again. So inside the range of a machine word a remainder is never
rounded, and taking remainders in turn computes what it does on integers.
-/

namespace QLisp.Number

variable {a b : Nat} {n d : Int} {x y : Number} {divisors : List Number}

/-- The integer that is left of a number when its fraction is dropped. -/
def whole (x : Number) : Int :=
  x.signedUnits.tdiv unitsInOne

/-- A number lies inside the range of a signed machine word. -/
structure InWord (x : Number) : Prop where
  /-- It is neither an infinity nor a NaN. -/
  finite : x.isFinite
  /-- It is not below the least word. -/
  least : leastWord * unitsInOne ≤ x.signedUnits
  /-- It is below the first integer that is too large for a word. -/
  below : x.signedUnits < signWeight * unitsInOne

/-! ### Integers of the form of a significand -/

/-- The remainder of two integers of the form of a significand is of that form. -/
theorem Representable.mod (first : Representable a) (second : Representable b) (positive : 0 < b) :
    Representable (a % b) := by
  obtain ⟨part, shift, short, rfl⟩ := first
  obtain ⟨part', shift', short', rfl⟩ := second
  have some : 0 < part' := Nat.pos_of_mul_pos_right positive
  -- The remainder ends no lower than the last bits of both.
  rcases Nat.le_total shift' shift with lower | lower
  · refine ⟨part * 2 ^ (shift - shift') % part', shift', Nat.lt_trans (Nat.mod_lt _ some) short', ?_⟩
    rw [← Nat.mul_mod_mul_right, Nat.mul_assoc, ← Nat.pow_add, Nat.sub_add_cancel lower]
  · refine ⟨part % (part' * 2 ^ (shift' - shift)), shift,
      Nat.lt_of_le_of_lt (Nat.mod_le _ _) short, ?_⟩
    rw [← Nat.mul_mod_mul_right, Nat.mul_assoc, ← Nat.pow_add, Nat.sub_add_cancel lower]

/-- The quotient by a power of two of an integer of the form of a significand is of that form. -/
theorem Representable.div_pow (representable : Representable a) (places : Nat) :
    Representable (a / 2 ^ places) := by
  obtain ⟨part, shift, short, rfl⟩ := representable
  rcases Nat.le_total places shift with exact | cut
  -- All bits of the significand are left when fewer places are cut off than there are zeros.
  · refine ⟨part, shift - places, short, ?_⟩
    rw [← Nat.sub_add_cancel exact, Nat.pow_add, ← Nat.mul_assoc,
      Nat.mul_div_cancel _ (Nat.two_pow_pos places), Nat.add_sub_cancel]
  · -- Bits of the significand are cut off.
    rw [← Nat.sub_add_cancel cut, Nat.pow_add, Nat.mul_div_mul_right _ _ (Nat.two_pow_pos shift)]
    exact representable_of_lt (Nat.lt_of_le_of_lt (Nat.div_le_self _ _) short)

/-- The units of a number are of the form of a significand. -/
theorem representable_units (x : Number) : Representable x.units := by
  have weight : exponentWeight = 2 ^ 52 := rfl
  unfold units unitsOf
  split
  · exact representable_of_lt (by omega)
  · have fraction : x.magnitude % exponentWeight < exponentWeight := Nat.mod_lt _ (by decide)
    exact ⟨_, _, by omega, rfl⟩

/-! ### Dropping the fraction -/

/-- The integer that is left of a number is the whole part of its absolute value, with the sign. -/
theorem whole_eq (x : Number) : x.whole =
    if x.negative then -((x.units / unitsInOne : Nat) : Int) else (x.units / unitsInOne : Nat) := by
  unfold whole signedUnits
  split
  · rw [Int.neg_tdiv, Int.ofNat_tdiv]
  · rw [Int.ofNat_tdiv]

/-- A number is truncated to the integer that is left of it, if this fits a machine word. -/
theorem truncate_eq (x : Number) :
    x.truncate = if x.isFinite && fitsWord x.whole then x.whole else leastWord := by
  rw [whole_eq]
  rfl

/-- The absolute value of the integer that is left of a number. -/
theorem natAbs_whole (x : Number) : x.whole.natAbs = x.units / unitsInOne := by
  rw [whole_eq]
  split
  · rw [Int.natAbs_neg, Int.natAbs_natCast]
  · rw [Int.natAbs_natCast]

/-- Nothing is left of finite numbers alone. -/
theorem isFinite_of_whole (none : x.whole = 0) : x.isFinite := by
  refine decide_eq_true (Nat.lt_of_not_le fun large => ?_)
  have normal : ¬ x.magnitude < exponentWeight :=
    Nat.not_lt.mpr (Nat.le_trans (by decide) large)
  -- An infinite magnitude has an exponent that stands for more than one.
  have exponent : 2047 ≤ x.magnitude / exponentWeight :=
    (Nat.le_div_iff_mul_le (by decide)).mpr large
  obtain ⟨places, form, power⟩ : ∃ places, places = 1074 ∧ unitsInOne = 2 ^ places :=
    ⟨_, rfl, unitsInOne_eq rfl⟩
  -- In units a number with that exponent is one at least.
  have high : unitsInOne ≤ 2 ^ (x.magnitude / exponentWeight - 1) := by
    rw [power]
    exact Nat.pow_le_pow_right (by decide) (by omega)
  have some : unitsInOne ≤ x.units := by
    rw [units, unitsOf, if_neg normal]
    exact Nat.le_trans high (Nat.le_mul_of_pos_left _ (Nat.add_pos_right _ (by decide)))
  -- So the integer part is not zero, as it was assumed to be.
  have more : 0 < x.units / unitsInOne := Nat.div_pos some unitsInOne_pos
  rw [← natAbs_whole, none] at more
  exact absurd more (by decide)

/-- A number is truncated to zero exactly when nothing is left of it without its fraction. -/
theorem truncate_eq_zero (x : Number) : x.truncate = 0 ↔ x.whole = 0 := by
  rw [truncate_eq]
  split
  · rfl
  · rename_i outside
    refine iff_of_false (by decide) fun none => outside ?_
    rw [isFinite_of_whole none, none]
    rfl

/-! ### Integers inside a machine word -/

/-- An integer that fits a machine word and has the form of a significand. -/
structure IsWord (n : Int) : Prop where
  /-- It fits a signed machine word. -/
  fits : fitsWord n
  /-- It is the value of some number. -/
  representable : Representable n.natAbs

/-- The integers that fit a machine word. -/
theorem fitsWord_iff (n : Int) : fitsWord n ↔ -2 ^ 63 ≤ n ∧ n < 2 ^ 63 := by
  rw [fitsWord, Bool.and_eq_true, decide_eq_true_iff, decide_eq_true_iff]
  rfl

/-- What is left of a number inside the range of a machine word is an integer inside it. -/
theorem InWord.isWord (inside : x.InWord) : IsWord x.whole where
  fits := by
    obtain ⟨_, least, below⟩ := inside
    have weight : signWeight = 2 ^ 63 := rfl
    rw [leastWord, Int.neg_mul, ← Nat.cast_mul, Nat.mul_comm] at least
    rw [← Nat.cast_mul, Nat.mul_comm] at below
    -- The integer fits exactly when its magnitude is inside the range on its side.
    rw [fitsWord_iff, whole_eq]
    unfold signedUnits at least below
    -- The least word itself is inside the range, and its opposite is not.
    split at least
    · have most : x.units / unitsInOne ≤ signWeight := Nat.div_le_of_le_mul (by omega)
      rw [if_pos ‹_›]
      generalize x.units / unitsInOne = left at most
      omega
    · rw [if_neg ‹_›] at below ⊢
      have less : x.units / unitsInOne < signWeight := Nat.div_lt_of_lt_mul (by omega)
      generalize x.units / unitsInOne = left at less
      omega
  representable := by
    -- What is left of a representable number without its places is representable.
    obtain ⟨places, power⟩ : ∃ places, unitsInOne = 2 ^ places := ⟨_, unitsInOne_eq rfl⟩
    rw [natAbs_whole, power]
    exact x.representable_units.div_pow places

/-- A number inside the range of a machine word is truncated to the integer that is left of it. -/
theorem InWord.truncate_eq (inside : x.InWord) : x.truncate = x.whole := by
  rw [Number.truncate_eq, inside.finite, inside.isWord.fits]
  rfl

/-- A remainder inside the range of a machine word is that of the integers left of the operands. -/
theorem InWord.rem_eq (first : x.InWord) (second : y.InWord) :
    x.rem y = ofInt (x.whole.tmod y.whole) := by
  rw [rem, first.truncate_eq, second.truncate_eq]

namespace IsWord

/-- The remainder of two integers inside a machine word is one, even of the least word by minus one. -/
theorem tmod (first : IsWord n) (second : IsWord d) (nonzero : d ≠ 0) : IsWord (n.tmod d) := by
  have positive : 0 < d.natAbs := Int.natAbs_pos.mpr nonzero
  have below : (n.tmod d).natAbs < d.natAbs := by
    rw [Int.natAbs_tmod]
    exact Nat.mod_lt _ positive
  have most := (fitsWord_iff d).mp second.fits
  -- It is smaller than the divisor, which is no larger than the least word.
  refine ⟨(fitsWord_iff _).mpr (by omega), ?_⟩
  rw [Int.natAbs_tmod]
  exact first.representable.mod second.representable positive

/-- An integer inside a machine word is a number without rounding. -/
theorem exact (word : IsWord n) : (ofInt n).isFinite ∧ (ofInt n).negative = decide (n < 0) ∧
    (ofInt n).signedUnits = n * unitsInOne :=
  ofInt_exact word.representable (by have := (fitsWord_iff n).mp word.fits; omega)

/-- The number of an integer inside a machine word lies inside its range. -/
theorem inWord (word : IsWord n) : (ofInt n).InWord := by
  have positive : (0 : Int) < unitsInOne := Int.natCast_pos.mpr unitsInOne_pos
  have fits := word.fits
  simp only [fitsWord, Bool.and_eq_true, decide_eq_true_eq] at fits
  -- Both bounds are multiples of one, so they can be compared in units.
  refine ⟨word.exact.1, ?_, ?_⟩
  · rw [word.exact.2.2]
    exact Int.mul_le_mul_of_nonneg_right fits.1 positive.le
  · rw [word.exact.2.2]
    exact Int.mul_lt_mul_of_pos_right fits.2 positive

/-- Nothing is dropped from the number of an integer inside a machine word. -/
theorem whole_ofInt (word : IsWord n) : (ofInt n).whole = n := by
  rw [whole, word.exact.2.2]
  exact Int.mul_tdiv_cancel n (Int.natCast_ne_zero.mpr unitsInOne_pos.ne')

end IsWord

/-! ### Folds of remainders -/

/-- A fold of remainders is smaller than the last divisor. -/
theorem natAbs_foldl_tmod_lt {divisors : List Int} {last : Int}
    (ended : divisors.getLast? = some last) (nonzero : last ≠ 0) :
    (divisors.foldl Int.tmod n).natAbs < last.natAbs := by
  -- Only the last step counts, whatever the others left.
  obtain ⟨others, rfl⟩ := List.getLast?_eq_some_iff.mp ended
  rw [List.foldl_concat, Int.natAbs_tmod]
  exact Nat.mod_lt _ (Int.natAbs_pos.mpr nonzero)

/-- A fold of remainders keeps the sign, or it is zero. -/
theorem sign_foldl_tmod (divisors : List Int) :
    divisors.foldl Int.tmod n = 0 ∨ (divisors.foldl Int.tmod n).sign = n.sign := by
  -- A step may leave zero, and then zero is left to the end.
  induction divisors generalizing n with
  | nil => exact .inr rfl
  | cons d rest ih =>
    rw [List.foldl_cons]
    rcases ih (n := n.tmod d) with zero | kept
    · exact .inl zero
    · rw [Int.sign_tmod] at kept
      split at kept
      · exact .inl (Int.sign_eq_zero_iff_zero.mp kept)
      · exact .inr kept

/-- What is left of a number is below zero exactly when the number is negative, unless it is zero. -/
theorem whole_sign (x : Number) : x.whole = 0 ∨ x.negative = decide (x.whole < 0) := by
  rw [whole_eq]
  generalize x.units / unitsInOne = left
  cases x.negative
  · exact .inr (decide_eq_false (Int.not_lt.mpr (Int.natCast_nonneg left))).symm
  · rw [if_pos rfl, eq_comm (a := true), decide_eq_true_iff]
    omega

/-- A number is what is left when divisors are taken out of another in turn, without rounding. -/
structure Remainder (x : Number) (divisors : List Number) (z : Number) : Prop where
  /-- It lies inside the range of a machine word. -/
  inWord : z.InWord
  /-- It is the integer that truncated division leaves of the truncated operands. -/
  exact : z.signedUnits = (divisors.map whole).foldl Int.tmod x.whole * unitsInOne
  /-- It is smaller in magnitude than the last truncated divisor. -/
  smaller (last : Number) : divisors.getLast? = some last → z.whole.natAbs < last.whole.natAbs
  /-- It has the sign of the first operand, unless it is zero. -/
  sign : z.whole = 0 ∨ z.negative = x.negative

/-- Remainders that are taken in turn are those of the integers that are left of the operands. -/
theorem foldl_rem (inside : ∀ y ∈ x :: divisors, y.InWord) (nonzero : ∀ y ∈ divisors, y.whole ≠ 0)
    (some : divisors ≠ []) :
    IsWord ((divisors.map whole).foldl Int.tmod x.whole) ∧
      divisors.foldl rem x = ofInt ((divisors.map whole).foldl Int.tmod x.whole) := by
  -- Each remainder is the number of an integer inside a machine word, and the next starts from it.
  induction divisors generalizing x with
  | nil => exact absurd rfl some
  | cons y rest ih =>
    obtain ⟨first, second, others⟩ := List.forall_mem_cons.mp inside |>.imp_right
      List.forall_mem_cons.mp
    obtain ⟨divisor, divisors⟩ := List.forall_mem_cons.mp nonzero
    -- Both integers are inside a word, so their remainder is.
    have word : IsWord (x.whole.tmod y.whole) := first.isWord.tmod second.isWord divisor
    rw [List.foldl_cons, List.map_cons, List.foldl_cons, first.rem_eq second]
    cases rest with
    | nil => exact ⟨word, rfl⟩
    -- The remainder is the number that the others divide.
    | cons z more =>
      have next := List.forall_mem_cons.mpr ⟨word.inWord, others⟩
      have later := ih next divisors (List.cons_ne_nil z more)
      rw [word.whole_ofInt] at later
      exact later

/-- Remainders of numbers inside the range of a machine word, taken in turn, are exact. -/
theorem remainder_foldl (inside : ∀ y ∈ x :: divisors, y.InWord)
    (nonzero : ∀ y ∈ divisors, y.whole ≠ 0) (some : divisors ≠ []) :
    Remainder x divisors (divisors.foldl rem x) := by
  -- What holds of the fold of integers holds of the number that stands for it.
  obtain ⟨word, folded⟩ := foldl_rem inside nonzero some
  rw [folded]
  -- The last divisor bounds the remainder, and the first number gives its sign.
  refine ⟨word.inWord, word.exact.2.2, fun last ended => ?_, ?_⟩
  · rw [word.whole_ofInt]
    refine natAbs_foldl_tmod_lt ?_ (nonzero last (List.mem_of_getLast? ended))
    rw [List.getLast?_map, ended]
    rfl
  · rw [word.whole_ofInt, word.exact.2.1]
    rcases sign_foldl_tmod (n := x.whole) (divisors.map whole) with zero | kept
    · exact .inl zero
    · rcases x.whole_sign with zero | signed
      · have none : x.whole.sign = 0 := Int.sign_eq_zero_iff_zero.mpr zero
        exact .inl (Int.sign_eq_zero_iff_zero.mp (kept.trans none))
      · -- An integer is below zero exactly when its sign is.
        refine .inr ((decide_eq_decide.mpr ?_).trans signed.symm)
        rw [← Int.sign_eq_neg_one_iff_neg, kept, Int.sign_eq_neg_one_iff_neg]

end QLisp.Number
