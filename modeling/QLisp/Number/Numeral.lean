import QLisp.Number.Rounding

/-!
Numerals: the texts that spell a number.

A numeral has an optional sign, digits with at most one point, and an optional exponent. After
`0x` the digits are hexadecimal and a binary exponent is required. Underscores may separate
digits, and one may follow the `0x`.
-/

namespace QLisp.Number

/-- The value of an ASCII digit of a base up to sixteen. -/
def digitValue? (base : Nat) (c : Char) : Option Nat :=
  let value :=
    if '0' ≤ c && c ≤ '9' then some (c.toNat - '0'.toNat)
    else if 'a' ≤ c && c ≤ 'f' then some (c.toNat - 'a'.toNat + 10)
    else if 'A' ≤ c && c ≤ 'F' then some (c.toNat - 'A'.toNat + 10)
    else none
  value.filter (· < base)

/-- Whether a character is a digit of the base. -/
def isDigitOf (base : Nat) (c : Char) : Bool :=
  (digitValue? base c).isSome

/-- Whether a character may stand in a run of digits. -/
def inDigitRun (base : Nat) (c : Char) : Bool :=
  isDigitOf base c || c = '_'

/-- The number of digits in a run, underscores apart. -/
def digitCount (base : Nat) (run : List Char) : Nat :=
  run.countP (isDigitOf base)

/-- The whole number spelled by the digits of a run, underscores apart. -/
def digitsValue (base : Nat) (run : List Char) : Nat :=
  (run.filterMap (digitValue? base)).foldl (fun total digit => total * base + digit) 0

/-- Past this size further digits of an exponent are not counted: the number is zero or too large. -/
def exponentCeiling : Nat := 10000

/-- The size of an exponent spelled by a run of digits, counted until it reaches the ceiling. -/
def exponentSize (run : List Char) : Nat :=
  (run.filterMap (digitValue? 10)).foldl
    (fun total digit => if total < exponentCeiling then total * 10 + digit else total) 0

/-- Splits a leading sign off a text, telling whether it is negative. -/
def splitSign : List Char → Bool × List Char
  | '+' :: rest => (false, rest)
  | '-' :: rest => (true, rest)
  | text => (false, text)

/-- Whether every underscore stands between digits, or between the base mark and a digit. -/
def separatorsOk (base : Nat) (afterDigit : Bool) : List Char → Bool
  | [] => true
  | '_' :: c :: rest => afterDigit && isDigitOf base c && separatorsOk base true rest
  | ['_'] => false
  | c :: rest => separatorsOk base (isDigitOf base c) rest

/-- The exponent that a text spells from its mark to its end. -/
def exponent? (mark : Char) (text : List Char) : Option Int :=
  match text with
  | [] => none
  | c :: rest =>
    if c.toLower ≠ mark then none
    else
      let (negative, run) := splitSign rest
      -- The first character of the exponent is a digit, never an underscore.
      if run.all (inDigitRun 10) && run.head?.any (isDigitOf 10) then
        some (if negative then -(exponentSize run : Int) else exponentSize run)
      else none

/-- An unsigned numeral taken apart into its digits, its point and its exponent. -/
structure Numeral where
  /-- Ten, or sixteen after the hexadecimal mark. -/
  base : Nat
  /-- The whole number spelled by all the digits, the point ignored. -/
  digits : Nat
  /-- The number of digits after the point. -/
  places : Nat
  /-- The power of ten, or of two after the hexadecimal mark, that scales the value. -/
  exponent : Int
  deriving DecidableEq, Repr

/-- The ratio of natural numbers that a numeral stands for. -/
def Numeral.ratio (numeral : Numeral) : Nat × Nat :=
  -- A hexadecimal place is worth four binary ones.
  let (root, power) :=
    if numeral.base = 16 then (2, numeral.exponent - 4 * numeral.places)
    else (10, numeral.exponent - numeral.places)
  if power < 0 then (numeral.digits, Nat.pow root power.natAbs)
  else (numeral.digits * Nat.pow root power.natAbs, 1)

/-- Takes the digits, point and exponent of an unsigned numeral apart. -/
def unsignedNumeral? (base : Nat) (text : List Char) : Option Numeral :=
  let whole := text.takeWhile (inDigitRun base)
  let afterWhole := text.dropWhile (inDigitRun base)
  let (fraction, rest) := match afterWhole with
    | '.' :: more => (more.takeWhile (inDigitRun base), more.dropWhile (inDigitRun base))
    | more => ([], more)
  -- A point alone is no numeral, and neither is a sign.
  if digitCount base (whole ++ fraction) = 0 then none
  else
    let exponent :=
      -- Only a decimal numeral may do without an exponent.
      if rest.isEmpty && base = 10 then some 0
      else exponent? (if base = 16 then 'p' else 'e') rest
    exponent.map fun power =>
      ⟨base, digitsValue base (whole ++ fraction), digitCount base fraction, power⟩

/-- Takes an unsigned numeral apart, with its base mark and its digit separators. -/
def numeral? (text : List Char) : Option Numeral :=
  match text with
  | '0' :: mark :: c :: rest =>
    if mark.toLower = 'x' then
      if separatorsOk 16 true (c :: rest) then unsignedNumeral? 16 (c :: rest) else none
    else if separatorsOk 10 false text then unsignedNumeral? 10 text else none
  | _ => if separatorsOk 10 false text then unsignedNumeral? 10 text else none

/-- The number that a text spells, rounded to nearest; none if malformed or too large. -/
def ofText? (text : List Char) : Option Number :=
  let (negative, digits) := splitSign text
  (numeral? digits).bind fun numeral =>
    let (numerator, denominator) := numeral.ratio
    let magnitude := roundRatio numerator denominator
    if magnitude = infiniteMagnitude then none else some (ofMagnitude negative magnitude)

end QLisp.Number
