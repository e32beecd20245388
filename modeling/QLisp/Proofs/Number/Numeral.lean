import Mathlib.Data.List.Induction
import Mathlib.Data.List.TakeWhile
import Mathlib.Tactic.IntervalCases
import QLisp.Number.Numeral
import QLisp.Proofs.Form.Token
import QLisp.Proofs.Number.Decimal

/-!
The decimal text of a number reads back as the number.

Digits are written in full or with a power of ten. Either way the text is a run of digits, perhaps a
fraction, and perhaps an exponent, and what it stands for is the shortest decimal of the number in other
terms.
-/

namespace QLisp.Number

variable {c : Char} {run more : List Char} {x : Number}

/-! ### Runs of digits -/

/-- All characters of a run are decimal digits. -/
def Digits (run : List Char) : Prop :=
  ∀ c ∈ run, isDigitOf 10 c

/-- A digit is one of ten characters. -/
theorem mem_digits (digit : isDigitOf 10 c) :
    c ∈ ['0', '1', '2', '3', '4', '5', '6', '7', '8', '9'] := by
  obtain ⟨low, high⟩ := Grammar.isDigitOf_ten.mp digit
  have low : 48 ≤ c.toNat := low
  have high : c.toNat ≤ 57 := high
  have same : c = Char.ofNat c.toNat := (Char.ofNat_toNat c).symm
  generalize c.toNat = point at low high same
  subst same
  interval_cases point <;> decide

/-- The digits of a number are digits. -/
theorem digits_toDigits (n : Nat) : Digits (Nat.toDigits 10 n) := by
  intro c member
  have digit : c.isDigit := Nat.isDigit_of_mem_toDigits (by decide) (by decide) member
  simp only [Char.isDigit, Bool.and_eq_true, decide_eq_true_eq] at digit
  exact Grammar.isDigitOf_ten.mpr digit

/-- Zeros are digits. -/
theorem digits_zeros (count : Nat) : Digits (List.replicate count '0') := by
  intro c member
  rw [List.eq_of_mem_replicate member]
  decide

/-- Runs of digits that follow each other are one. -/
theorem Digits.append (first : Digits run) (second : Digits more) : Digits (run ++ more) :=
  fun c member => (List.mem_append.mp member).elim (first c) (second c)

/-- What digits are worth after a number that they continue. -/
theorem foldl_digits (base total : Nat) (digits : List Nat) :
    digits.foldl (fun total digit => total * base + digit) total =
      total * base ^ digits.length +
        digits.foldl (fun total digit => total * base + digit) 0 := by
  -- By induction on the digits; the first of them moves with the number before it.
  induction digits generalizing total with
  | nil => simp
  | cons digit rest ih =>
    rw [List.foldl_cons, List.foldl_cons, ih (total * base + digit), ih (0 * base + digit)]
    simp only [List.length_cons]
    ring

/-- As many characters of digits have a value as there are. -/
theorem length_values (digits : Digits run) :
    (run.filterMap (digitValue? 10)).length = run.length := by
  induction run with
  | nil => rfl
  | cons c rest ih =>
    obtain ⟨value, known⟩ := Option.isSome_iff_exists.mp (digits c (by simp))
    rw [List.filterMap_cons_some known, List.length_cons, List.length_cons,
      ih fun d member => digits d (by simp [member])]

/-- A run after another one is worth what it is alone, the first moved by its digits. -/
theorem digitsValue_append (second : Digits more) :
    digitsValue 10 (run ++ more) = digitsValue 10 run * 10 ^ more.length + digitsValue 10 more := by
  rw [digitsValue, List.filterMap_append, List.foldl_append, foldl_digits, length_values second]
  rfl

/-- Zeros are worth nothing. -/
theorem digitsValue_zeros (count : Nat) : digitsValue 10 (List.replicate count '0') = 0 := by
  induction count with
  | zero => rfl
  | succ count ih =>
    rw [List.replicate_succ', digitsValue_append (by simp [Digits]; decide), ih]
    rfl

/-- The digits of a number are worth the number. -/
theorem digitsValue_toDigits (n : Nat) : digitsValue 10 (Nat.toDigits 10 n) = n := by
  have one : ∀ digit < 10, digitsValue 10 [Nat.digitChar digit] = digit := by decide
  -- By induction on the number; its last digit is written last.
  induction n using Nat.strongRecOn with
  | ind n ih =>
    rw [Nat.toDigits_eq_if (by decide)]
    split
    -- A number below ten is one digit.
    · exact one n (by assumption)
    · have last : n % 10 < 10 := Nat.mod_lt n (by decide)
      have digit : Digits [Nat.digitChar (n % 10)] := by
        rw [← Nat.toDigits_of_lt_base last]
        exact digits_toDigits _
      rw [digitsValue_append digit, ih (n / 10) (by omega), one _ last, List.length_singleton]
      omega

/-- The digits of a number are its significant digits and then zeros. -/
theorem exists_zeros (n : Nat) : ∃ count, Nat.toDigits 10 n =
    significantDigits n ++ List.replicate count '0' := by
  refine ⟨((Nat.toDigits 10 n).reverse.takeWhile (· = '0')).length, ?_⟩
  have zeros : ((Nat.toDigits 10 n).reverse.takeWhile (· = '0')).reverse =
      List.replicate ((Nat.toDigits 10 n).reverse.takeWhile (· = '0')).length '0' := by
    refine List.eq_replicate_iff.mpr ⟨List.length_reverse, fun c member => ?_⟩
    simpa using List.mem_takeWhile_imp (List.mem_reverse.mp member)
  rw [significantDigits, ← zeros, ← List.reverse_append, List.takeWhile_append_dropWhile,
    List.reverse_reverse]

/-! ### Ratios -/

/-- A decimal is its digits with zeros for a positive power, over the scale of a negative one. -/
theorem Decimal.ratio_eq (d : Decimal) :
    d.ratio = (d.digits * 10 ^ d.power.toNat, 10 ^ (-d.power).toNat) := by
  obtain ⟨digits, power⟩ := d
  dsimp only [ratio]
  -- One of the two powers is zero.
  split
  · have scale : power.natAbs = (-power).toNat := by omega
    have none : power.toNat = 0 := by omega
    simp [scale, none]
  · have scale : power.natAbs = power.toNat := by omega
    have none : (-power).toNat = 0 := by omega
    simp [scale, none]

/-- Digits that are moved by zeros are rounded in the same way when the power is lower by as many. -/
theorem roundRatio_moved (digits : Nat) {zeros zeros' : Nat} {power power' : Int}
    (same : power + zeros = power' + zeros') :
    roundRatio (⟨digits * 10 ^ zeros, power⟩ : Decimal).ratio.1
        (⟨digits * 10 ^ zeros, power⟩ : Decimal).ratio.2 =
      roundRatio (⟨digits * 10 ^ zeros', power'⟩ : Decimal).ratio.1
        (⟨digits * 10 ^ zeros', power'⟩ : Decimal).ratio.2 := by
  simp only [Decimal.ratio_eq]
  refine roundRatio_congr (Nat.pow_pos (by decide)) (Nat.pow_pos (by decide)) ?_
  have powers : zeros + power.toNat + (-power').toNat = zeros' + power'.toNat + (-power).toNat := by
    omega
  simp only [Nat.mul_assoc, ← Nat.pow_add, powers]

/-! ### Parts of a numeral -/

/-- A fraction with the point before it, and no point without one. -/
def pointed (fraction : List Char) : List Char :=
  if fraction.isEmpty then [] else '.' :: fraction

/-- The power of ten that the end of a decimal numeral spells. -/
def scale? (tail : List Char) : Option Int :=
  if tail.isEmpty then some 0 else exponent? 'e' tail

/-- A run of digits ends before a character that is none. -/
theorem span_digits {tail : List Char} (digits : Digits run)
    (ends : ∀ c ∈ tail.head?, ¬ inDigitRun 10 c) :
    (run ++ tail).takeWhile (inDigitRun 10) = run ∧
      (run ++ tail).dropWhile (inDigitRun 10) = tail := by
  have inside : ∀ c ∈ run, inDigitRun 10 c := fun c member => by simp [inDigitRun, digits c member]
  -- The character after the run stops it, if there is one.
  have none : tail.takeWhile (inDigitRun 10) = [] ∧ tail.dropWhile (inDigitRun 10) = tail := by
    cases tail with
    | nil => exact ⟨rfl, rfl⟩
    | cons c rest =>
      have other := ends c rfl
      simp [other]
  rw [List.takeWhile_append_of_pos inside, List.dropWhile_append_of_pos inside, none.1, none.2,
    List.append_nil]
  exact ⟨rfl, rfl⟩

/-- A run of digits has as many digits as characters. -/
theorem digitCount_eq (digits : Digits run) : digitCount 10 run = run.length :=
  List.countP_eq_length.mpr digits

/-- The end of a decimal numeral: nothing, or an exponent. -/
def Ends (tail : List Char) : Prop :=
  tail = [] ∨ ∃ rest, tail = 'e' :: rest

/-- Digits, a fraction and an exponent are taken apart. -/
theorem unsignedNumeral?_eq {whole fraction tail : List Char} {power : Int} (nonempty : whole ≠ [])
    (first : Digits whole) (second : Digits fraction) (ends : Ends tail)
    (scaled : scale? tail = some power) :
    unsignedNumeral? 10 (whole ++ (pointed fraction ++ tail)) =
      some ⟨10, digitsValue 10 (whole ++ fraction), fraction.length, power⟩ := by
  -- There is a digit before the point, so this is a numeral.
  have none : digitCount 10 (whole ++ fraction) ≠ 0 := by
    rw [digitCount_eq (first.append second), List.length_append]
    have := List.length_pos_iff.mpr nonempty
    omega
  -- What comes after the digits is an exponent or nothing.
  have stop : ∀ c ∈ tail.head?, ¬ inDigitRun 10 c := by
    obtain rfl | ⟨rest, rfl⟩ := ends
    · simp
    · rintro c ⟨⟩
      decide
  have mark : (if (10 : Nat) = 16 then 'p' else 'e') = 'e' := rfl
  rw [scale?] at scaled
  -- A fraction without places is written without a point.
  cases fraction with
  | nil =>
    obtain ⟨taken, left⟩ := span_digits first stop
    rw [show pointed [] ++ tail = tail from rfl, unsignedNumeral?, taken, left]
    -- An exponent has no point, so the fraction is taken to be empty.
    obtain rfl | ⟨rest, rfl⟩ := ends
    · cases scaled
      exact if_neg none
    · refine (if_neg none).trans ?_
      have scaled : exponent? 'e' ('e' :: rest) = some power := scaled
      change (exponent? 'e' ('e' :: rest)).map _ = _
      rw [scaled]
      rfl
  -- The point ends the whole part, and what comes after it is read as the fraction.
  | cons place rest =>
    have point : ∀ c ∈ ('.' :: (place :: rest ++ tail)).head?, ¬ inDigitRun 10 c := by
      rintro c ⟨⟩
      decide
    obtain ⟨taken, left⟩ := span_digits first point
    obtain ⟨inner, outer⟩ := span_digits second stop
    rw [show pointed (place :: rest) ++ tail = '.' :: (place :: rest ++ tail) from rfl,
      unsignedNumeral?, taken, left]
    simp only [inner, outer, none, if_false, decide_true, Bool.and_true, mark, scaled,
      digitCount_eq second]
    rfl

/-- The characters of decimal numerals. -/
def numeralChars : List Char :=
  ['0', '1', '2', '3', '4', '5', '6', '7', '8', '9', '.', '+', '-', 'e']

/-- Digits are characters of numerals. -/
theorem Digits.numeralChars (digits : Digits run) : ∀ c ∈ run, c ∈ numeralChars :=
  fun c member => List.mem_append_left ['.', '+', '-', 'e'] (mem_digits (digits c member))

/-- Without underscores none stands in the wrong place. -/
theorem separatorsOk_of_notMem {base : Nat} {text : List Char} (absent : '_' ∉ text)
    (afterDigit : Bool) : separatorsOk base afterDigit text := by
  induction text generalizing afterDigit with
  | nil => rfl
  | cons c rest ih =>
    rw [separatorsOk.eq_4 _ _ _ _ (by rintro d more rfl; simp at absent) (by rintro rfl; simp at absent)]
    exact ih (fun member => absent (List.mem_cons_of_mem _ member)) _

/-- A text of the characters of decimal numerals has no base mark and no separators. -/
theorem numeral?_eq {text : List Char} (plain : ∀ c ∈ text, c ∈ numeralChars) :
    numeral? text = unsignedNumeral? 10 text := by
  have absent : '_' ∉ text := fun member => absurd (plain _ member) (by decide)
  have unmarked : numeralChars.all (·.toLower ≠ 'x') := by decide
  unfold numeral?
  -- A base is marked by a letter that does not occur.
  split
  · rename_i mark c rest
    have other := of_decide_eq_true (List.all_eq_true.mp unmarked mark (plain mark (by simp)))
    rw [if_neg other, if_pos (separatorsOk_of_notMem absent _)]
  · rw [if_pos (separatorsOk_of_notMem absent _)]

/-- The parts of a decimal numeral for digits that end at a power of ten, perhaps with more zeros. -/
inductive Spelled (digits : Nat) (power : Int) : List Char → Prop where
  /-- The digits around the point, and the end that scales them. -/
  | parts {whole fraction tail : List Char} {scale : Int} {zeros : Nat} (nonempty : whole ≠ [])
      (first : Digits whole) (second : Digits fraction) (ends : Ends tail)
      (plain : ∀ c ∈ tail, c ∈ numeralChars) (scaled : scale? tail = some scale)
      (worth : digitsValue 10 (whole ++ fraction) = digits * 10 ^ zeros)
      (place : scale - fraction.length + zeros = power) :
      Spelled digits power (whole ++ (pointed fraction ++ tail))

/-- A decimal numeral has no other characters. -/
theorem Spelled.chars {digits : Nat} {power : Int} {text : List Char}
    (spelled : Spelled digits power text) : ∀ c ∈ text, c ∈ numeralChars := by
  obtain ⟨_, first, second, _, plain, _⟩ := spelled
  -- A character is in one of the three parts or is the point.
  intro c member
  -- The whole part holds digits only.
  rcases List.mem_append.mp member with inside | inside
  · exact first.numeralChars c inside
  · rcases List.mem_append.mp inside with inside | inside
    -- After the point there are digits, if there is a point.
    · unfold pointed at inside
      split at inside
      · cases inside
      · rcases List.mem_cons.mp inside with rfl | inside
        · decide
        · exact second.numeralChars c inside
    · exact plain c inside

/-- A decimal numeral stands for its digits at the power of the last of them. -/
theorem Numeral.ratio_decimal (digits places : Nat) (exponent : Int) :
    (⟨10, digits, places, exponent⟩ : Numeral).ratio = (⟨digits, exponent - places⟩ : Decimal).ratio :=
  rfl

/-- A decimal numeral is read, and rounded as its digits at their power. -/
theorem Spelled.read {digits : Nat} {power : Int} {text : List Char}
    (spelled : Spelled digits power text) :
    ∃ numeral, numeral? text = some numeral ∧
      roundRatio numeral.ratio.1 numeral.ratio.2 =
        roundRatio (⟨digits, power⟩ : Decimal).ratio.1 (⟨digits, power⟩ : Decimal).ratio.2 := by
  rw [numeral?_eq spelled.chars]
  obtain ⟨nonempty, first, second, ends, _, scaled, worth, place⟩ := spelled
  rw [unsignedNumeral?_eq nonempty first second ends scaled, worth]
  refine ⟨_, rfl, ?_⟩
  -- The zeros after the digits and the places of the fraction make up for the power.
  rename_i fraction _ scale zeros _
  have same : scale - fraction.length + (zeros : Nat) = power + (0 : Nat) := by omega
  have moved := roundRatio_moved digits same
  rw [Nat.pow_zero, Nat.mul_one] at moved
  rw [Numeral.ratio_decimal, moved]

/-- A decimal numeral begins with a digit. -/
theorem Spelled.first {digits : Nat} {power : Int} {text : List Char}
    (spelled : Spelled digits power text) : ∃ digit rest, text = digit :: rest ∧ isDigitOf 10 digit := by
  obtain ⟨nonempty, first, _⟩ := spelled
  rename_i whole _ _ _ _
  obtain ⟨digit, rest, rfl⟩ := List.exists_cons_of_ne_nil nonempty
  exact ⟨digit, _, rfl, first digit (by simp)⟩

/-! ### Digits written out -/

/-- Digits alone are a decimal numeral, whose last zeros may be left to the power. -/
theorem Spelled.whole {digits zeros : Nat} {power : Int} (some : run ≠ []) (first : Digits run)
    (worth : digitsValue 10 run = digits * 10 ^ zeros) (place : (zeros : Int) = power) :
    Spelled digits power run := by
  have spelled : Spelled digits power (run ++ (pointed [] ++ [])) :=
    .parts some first (by simp [Digits]) (.inl rfl) (by simp) (show scale? [] = _ from rfl)
      (by rw [List.append_nil, worth]) (by simpa using place)
  rwa [show pointed [] ++ [] = [] from rfl, List.append_nil] at spelled

/-- Digits around a point are a decimal numeral, at a power of one place for each after the point. -/
theorem Spelled.fraction {digits : Nat} {power : Int} (some : run ≠ []) (first : Digits run)
    (some' : more ≠ []) (second : Digits more) (worth : digitsValue 10 (run ++ more) = digits)
    (place : -(more.length : Int) = power) : Spelled digits power (run ++ '.' :: more) := by
  have spelled : Spelled digits power (run ++ (pointed more ++ [])) :=
    .parts some first second (.inl rfl) (by simp) (show scale? [] = _ from rfl)
      (show _ = digits * 10 ^ 0 by rw [worth, Nat.pow_zero, Nat.mul_one]) (by omega)
  rwa [show pointed more = '.' :: more from if_neg (by simp [some']), List.append_nil] at spelled

/-- Digits written out around the point spell them. -/
theorem spelled_positional {run : List Char} (digits : Digits run) (nonempty : run ≠ []) (lead : Int) :
    Spelled (digitsValue 10 run) (lead + 1 - run.length) (positional run lead) := by
  have length := List.length_pos_iff.mpr nonempty
  -- Where the point stands is told by the power of the leading digit.
  unfold positional
  by_cases below : lead < 0
  · -- Zeros stand between the point and the digits.
    rw [if_pos below]
    have worth : digitsValue 10 (['0'] ++ (List.replicate (lead.natAbs - 1) '0' ++ run)) =
        digitsValue 10 run := by
      rw [← List.append_assoc, digitsValue_append digits,
        show ['0'] ++ List.replicate (lead.natAbs - 1) '0' = List.replicate (lead.natAbs - 1 + 1) '0'
          from rfl, digitsValue_zeros]
      omega
    -- The leading zero is the whole part, and the digits begin behind the zeros.
    show Spelled _ _ (['0'] ++ '.' :: (List.replicate (lead.natAbs - 1) '0' ++ run))
    refine .fraction (by simp) (digits_zeros 1) (by simp [nonempty]) ((digits_zeros _).append digits)
      worth ?_
    rw [List.length_append, List.length_replicate]
    omega
  -- With a power that is not negative the leading digit is before the point.
  rw [if_neg below]
  by_cases short : run.length ≤ lead.natAbs + 1
  · -- The digits end before the point, with zeros up to it.
    rw [if_pos short]
    -- A zero behind the digits multiplies what they are worth by ten.
    have worth : digitsValue 10 (run ++ List.replicate (lead.natAbs + 1 - run.length) '0') =
        digitsValue 10 run * 10 ^ (lead.natAbs + 1 - run.length) := by
      rw [digitsValue_append (digits_zeros _), digitsValue_zeros, List.length_replicate, Nat.add_zero]
    exact .whole (by simp [nonempty]) (digits.append (digits_zeros _)) worth (by omega)
  · -- The point stands among the digits.
    rw [if_neg short]
    refine .fraction (by simp [nonempty]) (fun c member => digits c (List.mem_of_mem_take member))
      (by simp; omega) (fun c member => digits c (List.mem_of_mem_drop member))
      (by rw [List.take_append_drop]) ?_
    -- As many digits are behind the point as are left of the run.
    rw [List.length_drop]
    omega

/-- Below the ceiling the whole exponent is counted. -/
theorem exponentSize_eq (small : digitsValue 10 run < 10 * exponentCeiling) :
    exponentSize run = digitsValue 10 run := by
  unfold digitsValue at small ⊢
  unfold exponentSize
  generalize run.filterMap (digitValue? 10) = values at small ⊢
  -- By induction on the digits from the last: what is counted before a digit is a tenth of the rest.
  induction values using List.reverseRec with
  | nil => rfl
  | append_singleton values value ih =>
    rw [List.foldl_append, List.foldl_cons, List.foldl_nil] at small ⊢
    rw [List.foldl_append, List.foldl_cons, List.foldl_nil]
    generalize List.foldl (fun total digit => total * 10 + digit) 0 values = total at small ih ⊢
    rw [ih (by omega), if_pos (by omega)]

/-- A sign and digits after its letter tell an exponent. -/
theorem scale?_signed {exponent : List Char} {lead : Int} (digits : Digits exponent)
    (filled : exponent ≠ []) (worth : digitsValue 10 exponent = lead.natAbs)
    (small : lead.natAbs < 10 * exponentCeiling) :
    scale? ('e' :: (if lead < 0 then '-' else '+') :: exponent) = some lead := by
  -- An exponent below the ceiling is counted in full.
  have counted : exponentSize exponent = lead.natAbs := by
    rw [exponentSize_eq (by omega), worth]
  -- An exponent begins with a digit, and is digits only.
  have start : exponent.head?.any (isDigitOf 10) := by
    obtain ⟨first, rest, rfl⟩ := List.exists_cons_of_ne_nil filled
    exact digits first (by simp)
  have run : exponent.all (inDigitRun 10) := by
    rw [List.all_eq_true]
    exact fun c member => by simp [inDigitRun, digits c member]
  -- The sign of the exponent tells on which side of the point the digits are.
  by_cases negative : lead < 0
  · rw [if_pos negative]
    -- A negative exponent is read with its sign.
    have spelled : scale? ('e' :: '-' :: exponent) = some (-(exponentSize exponent : Int)) :=
      if_pos (Bool.and_eq_true_iff.mpr ⟨run, start⟩)
    rw [spelled, counted]
    congr 1
    omega
  · rw [if_neg negative]
    have spelled : scale? ('e' :: '+' :: exponent) = some (exponentSize exponent : Int) :=
      if_pos (Bool.and_eq_true_iff.mpr ⟨run, start⟩)
    rw [spelled, counted]
    congr 1
    omega

/-- Digits with a power of ten spell them. -/
theorem spelled_scientific {run : List Char} (digits : Digits run) (nonempty : run ≠ []) {lead : Int}
    (small : lead.natAbs < 10 * exponentCeiling) :
    Spelled (digitsValue 10 run) (lead + 1 - run.length) (scientific run lead) := by
  -- A run of digits is not empty, so the first one stands before the point.
  have length := List.length_pos_iff.mpr nonempty
  -- The exponent is written with two digits at least.
  have size : Digits (List.replicate (2 - (Nat.toDigits 10 lead.natAbs).length) '0' ++
      Nat.toDigits 10 lead.natAbs) := (digits_zeros _).append (digits_toDigits _)
  have worth : digitsValue 10 (List.replicate (2 - (Nat.toDigits 10 lead.natAbs).length) '0' ++
      Nat.toDigits 10 lead.natAbs) = lead.natAbs := by
    rw [digitsValue_append (digits_toDigits _), digitsValue_zeros, digitsValue_toDigits]
    omega
  -- The exponent is a nonempty run of digits that is worth the power.
  have filled : List.replicate (2 - (Nat.toDigits 10 lead.natAbs).length) '0' ++
      Nat.toDigits 10 lead.natAbs ≠ [] :=
    List.append_ne_nil_of_right_ne_nil _ (Nat.toDigits_ne_nil)
  generalize written : List.replicate (2 - (Nat.toDigits 10 lead.natAbs).length) '0' ++
    Nat.toDigits 10 lead.natAbs = exponent at size worth filled
  have shape : scientific run lead = run.take 1 ++ (pointed (run.drop 1) ++
      ('e' :: (if lead < 0 then '-' else '+') :: exponent)) := by
    rw [← written, scientific, pointed]
    cases run.drop 1 with
    | nil => simp
    | cons place rest => simp
  -- So the exponent is read back as the power.
  have scaled := scale?_signed size filled worth small
  rw [shape]
  -- The digits are those of the run, cut behind the first one.
  have whole : digitsValue 10 (run.take 1 ++ run.drop 1) = digitsValue 10 run * 10 ^ 0 := by
    rw [List.take_append_drop, Nat.pow_zero, Nat.mul_one]
  refine .parts (by simp [nonempty]) (fun c member => digits c (List.mem_of_mem_take member))
    (fun c member => digits c (List.mem_of_mem_drop member)) (.inr ⟨_, rfl⟩) ?_ scaled whole ?_
  -- The characters of the exponent are its letter, its sign and digits.
  · intro c member
    rcases List.mem_cons.mp member with rfl | member
    · decide
    · rcases List.mem_cons.mp member with rfl | member
      · split <;> decide
      · exact size.numeralChars c member
  · rw [List.length_drop]
    omega

/-! ### The text of a number -/

/-- The leading power of ten of a shortest decimal is within reach of an exponent. -/
theorem leadingDigits_lt {magnitude : Nat} (positive : 0 < magnitude)
    (finite : magnitude < infiniteMagnitude) :
    (shortest magnitude).leadingDigits.2.natAbs < 10 * exponentCeiling := by
  obtain ⟨power, places, bounded, digits⟩ := shortest_bounds positive finite
  have ceiling : exponentCeiling = 10000 := rfl
  have length : (Nat.toDigits 10 (shortest magnitude).digits).length ≤ places + 1 :=
    (Nat.length_toDigits_le_iff (by decide) (Nat.succ_pos _)).mpr
      (Nat.lt_of_lt_of_le digits (Nat.pow_le_pow_right (by decide) (Nat.le_succ _)))
  dsimp only [Decimal.leadingDigits]
  omega

/-- A decimal is worth its significant digits at the power that is left to them. -/
theorem roundRatio_significant (d : Decimal) :
    roundRatio (⟨digitsValue 10 d.leadingDigits.1,
        d.leadingDigits.2 + 1 - d.leadingDigits.1.length⟩ : Decimal).ratio.1
        (⟨digitsValue 10 d.leadingDigits.1,
          d.leadingDigits.2 + 1 - d.leadingDigits.1.length⟩ : Decimal).ratio.2 =
      roundRatio d.ratio.1 d.ratio.2 := by
  obtain ⟨digits, power⟩ := d
  dsimp only [Decimal.leadingDigits]
  -- The digits that count are followed by zeros only.
  obtain ⟨zeros, written⟩ := exists_zeros digits
  have length := congrArg List.length written
  rw [List.length_append, List.length_replicate] at length
  -- Those zeros are as many more powers of ten.
  have worth : digits = digitsValue 10 (significantDigits digits) * 10 ^ zeros := by
    conv_lhs => rw [← digitsValue_toDigits digits, written]
    rw [digitsValue_append (digits_zeros zeros), digitsValue_zeros, List.length_replicate,
      Nat.add_zero]
  have same : power + zeros + (0 : Nat) = power + zeros := by omega
  have moved := roundRatio_moved (digitsValue 10 (significantDigits digits)) same
  rw [Nat.pow_zero, Nat.mul_one, ← worth] at moved
  have left : power + (Nat.toDigits 10 digits).length - 1 + 1 - (significantDigits digits).length =
      power + zeros := by omega
  rw [← moved, left]

/-- The significant digits of a number are digits, and there are some unless it is zero. -/
theorem significantDigits_spec {n : Nat} (positive : 0 < n) :
    Digits (significantDigits n) ∧ significantDigits n ≠ [] := by
  obtain ⟨zeros, written⟩ := exists_zeros n
  refine ⟨fun c member => digits_toDigits n c (written ▸ List.mem_append_left _ member), ?_⟩
  intro none
  have worth := digitsValue_toDigits n
  rw [written, none, List.nil_append, digitsValue_zeros] at worth
  omega

/-- The sign of a number as it is written. -/
def signChars (x : Number) : List Char :=
  if x.negative then ['-'] else []

/-- The text of a finite number is its sign and a decimal numeral that is rounded to the number. -/
theorem toChars_spelled (finite : x.isFinite) :
    ∃ body digits power, x.toChars = x.signChars ++ body ∧ Spelled digits power body ∧
      roundRatio (⟨digits, power⟩ : Decimal).ratio.1 (⟨digits, power⟩ : Decimal).ratio.2 =
        x.magnitude := by
  have finite : x.magnitude < infiniteMagnitude := of_decide_eq_true finite
  have number : ¬ x.isNaN := by simp [isNaN, finite.le]
  have bounded : ¬ x.isInfinite := by simp [isInfinite, finite.ne]
  unfold toChars
  rw [if_neg number, if_neg bounded]
  by_cases none : x.magnitude = 0
  -- Zero is written with one digit.
  · have zero := spelled_positional (digits_zeros 1) (by simp) 0
    exact ⟨['0'], _, _, if_pos none, zero, by rw [none]; exact roundRatio_zero _⟩
  · have positive := Nat.pos_of_ne_zero none
    -- Any other number is written with the digits of its shortest decimal, one of which is not
    -- zero.
    have reads : roundRatio (shortest x.magnitude).ratio.1 (shortest x.magnitude).ratio.2 =
        x.magnitude := of_decide_eq_true (shortest_readsAs positive finite)
    have small := leadingDigits_lt positive finite
    have filled : 0 < (shortest x.magnitude).digits := by
      refine Nat.pos_of_ne_zero fun zero => none ?_
      rw [← reads, Decimal.ratio_eq, zero, Nat.zero_mul]
      exact roundRatio_zero _
    obtain ⟨digits, nonempty⟩ := significantDigits_spec filled
    refine ⟨_, _, _, if_neg none, ?_, (roundRatio_significant _).trans reads⟩
    split
    · exact spelled_positional digits nonempty _
    · exact spelled_scientific digits nonempty small

/-- A number is its sign and its magnitude. -/
theorem ofMagnitude_magnitude (x : Number) : ofMagnitude x.negative x.magnitude = x := by
  obtain ⟨bits⟩ := x
  have word : bits.toNat < 2 ^ 64 := bits.toNat_lt
  have weight : signWeight = 2 ^ 63 := rfl
  -- The sign is the leading bit, and the magnitude is the others.
  have whole : bits.toNat % signWeight + (if decide (signWeight ≤ bits.toNat) then signWeight else 0) =
      bits.toNat := by
    rw [weight]
    simp only [decide_eq_true_eq]
    split <;> omega
  rw [ofMagnitude, negative, magnitude, whole, UInt64.ofNat_toNat]

/-- A numeral without a sign is read as it stands. -/
theorem splitSign_digit {digit : Char} {rest : List Char} (isDigit : isDigitOf 10 digit) :
    splitSign (digit :: rest) = (false, digit :: rest) := by
  have member := mem_digits isDigit
  -- A sign is no digit.
  unfold splitSign
  split
  · rename_i same
    cases same
    exact absurd member (by decide)
  · rename_i same
    cases same
    exact absurd member (by decide)
  · rfl

/-- The text of a finite number reads back as the number. -/
theorem ofText?_toChars (finite : x.isFinite) : ofText? x.toChars = some x := by
  obtain ⟨body, digits, power, text, spelled, rounded⟩ := toChars_spelled finite
  have magnitude : x.magnitude ≠ infiniteMagnitude := Nat.ne_of_lt (of_decide_eq_true finite)
  -- What is spelled is read as the decimal that it stands for.
  obtain ⟨numeral, read, same⟩ := spelled.read
  -- The first character after the sign is a digit.
  have split : splitSign x.toChars = (x.negative, body) := by
    rw [text, signChars]
    cases x.negative with
    | true => rfl
    | false =>
      obtain ⟨digit, rest, rfl, isDigit⟩ := spelled.first
      exact splitSign_digit isDigit
  rw [ofText?, split]
  dsimp only
  rw [read, Option.bind_some, same, rounded, if_neg magnitude, ofMagnitude_magnitude]

/-- The text of a finite number has only the characters of decimal numerals. -/
theorem toChars_chars (finite : x.isFinite) : ∀ c ∈ x.toChars, c ∈ numeralChars := by
  obtain ⟨body, digits, power, text, spelled, _⟩ := toChars_spelled finite
  intro c member
  rw [text] at member
  -- The sign is one of the characters, if it is written.
  rcases List.mem_append.mp member with sign | member
  · unfold signChars at sign
    split at sign
    · rw [List.mem_singleton.mp sign]
      decide
    · cases sign
  · exact spelled.chars c member

/-- The text of a finite number is a token that has to be a number. -/
theorem numeric_toChars (finite : x.isFinite) : Grammar.Numeric x.toChars := by
  obtain ⟨body, digits, power, text, spelled, _⟩ := toChars_spelled finite
  obtain ⟨digit, rest, rfl, isDigit⟩ := spelled.first
  obtain ⟨low, high⟩ := Grammar.isDigitOf_ten.mp isDigit
  refine ⟨x.signChars, ?_, [], by simp, digit, rest, low, high, by rw [text, List.append_nil]⟩
  unfold signChars
  split <;> simp

end QLisp.Number
