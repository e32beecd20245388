import QLisp.Number.Rounding

/-!
The decimal text of a number: the fewest digits that read back as the same number.

Among texts with equally few digits the nearest to the number is chosen.
-/

namespace QLisp.Number

/-- A positive decimal fraction: a whole number of digits scaled by a power of ten. -/
structure Decimal where
  /-- The significant digits as a whole number. -/
  digits : Nat
  /-- The power of ten of the last digit. -/
  power : Int
  deriving DecidableEq, Repr

/-- The ratio of natural numbers that a decimal stands for. -/
def Decimal.ratio (d : Decimal) : Nat × Nat :=
  let scale := Nat.pow 10 d.power.natAbs
  if d.power < 0 then (d.digits, scale) else (d.digits * scale, 1)

/-- The power of ten of the leading digit of a positive number of units. -/
def leadingPower (units : Nat) : Int :=
  -- The largest number has 309 whole digits, and the smallest has its first at place 324.
  if unitsInOne ≤ units then
    match (List.range 310).find? (fun k => units < unitsInOne * Nat.pow 10 (k + 1)) with
    | some k => k
    | none => 310
  else
    match (List.range 330).find? (fun k => unitsInOne ≤ units * Nat.pow 10 k) with
    | some k => -(k : Int)
    | none => -330

/-- A number of units measured in a power of ten, as a ratio. -/
def measure (units : Nat) (power : Int) : Nat × Nat :=
  let scale := Nat.pow 10 power.natAbs
  if power < 0 then (units * scale, unitsInOne) else (units, unitsInOne * scale)

/-- Whether a decimal reads back as the magnitude bits. -/
def Decimal.readsAs (d : Decimal) (magnitude : Nat) : Bool :=
  roundRatio d.ratio.1 d.ratio.2 = magnitude

/-- The decimal with last digit at the given power that is nearest to a number of units. -/
def closest (units : Nat) (power : Int) : Decimal :=
  let ratio := measure units power
  ⟨nearest ratio.1 ratio.2, power⟩

/-- The decimal with last digit at the given power that reads back and is nearest, if any does. -/
def decimalAt? (magnitude : Nat) (power : Int) : Option Decimal :=
  let ratio := measure (unitsOf magnitude) power
  let below : Decimal := ⟨ratio.1 / ratio.2, power⟩
  let above : Decimal := ⟨ratio.1 / ratio.2 + 1, power⟩
  let close := closest (unitsOf magnitude) power
  -- Only the two neighbours on the grid can be nearest, and the nearer of them is preferred.
  if close.readsAs magnitude then some close
  else if below.readsAs magnitude then some below
  else if above.readsAs magnitude then some above
  else none

/-- The shortest decimal that reads back as positive finite magnitude bits. -/
def shortest (magnitude : Nat) : Decimal :=
  let lead := leadingPower (unitsOf magnitude)
  -- Seventeen digits always tell neighbouring numbers apart.
  ((List.range 17).findSome? fun n : Nat => decimalAt? magnitude (lead - n)).getD
    (closest (unitsOf magnitude) (lead - 16))

/-- The digits of a natural number without its trailing zeros. -/
def significantDigits (n : Nat) : List Char :=
  ((Nat.toDigits 10 n).reverse.dropWhile (· = '0')).reverse

/-- The digits of a decimal and the power of ten of the first of them. -/
def Decimal.leadingDigits (d : Decimal) : List Char × Int :=
  (significantDigits d.digits, d.power + ((Nat.toDigits 10 d.digits).length : Int) - 1)

/-- Digits written out around the decimal point, the first standing at the given power of ten. -/
def positional (digits : List Char) (lead : Int) : List Char :=
  if lead < 0 then
    '0' :: '.' :: List.replicate (lead.natAbs - 1) '0' ++ digits
  else
    let whole := lead.natAbs + 1
    let padded := digits ++ List.replicate (whole - digits.length) '0'
    if digits.length ≤ whole then padded
    else digits.take whole ++ '.' :: digits.drop whole

/-- Digits as one digit, a fraction and a power of ten of at least two figures. -/
def scientific (digits : List Char) (lead : Int) : List Char :=
  let size := Nat.toDigits 10 lead.natAbs
  let fraction := match digits.drop 1 with
    | [] => []
    | more => '.' :: more
  digits.take 1 ++ fraction ++ ['e', if lead < 0 then '-' else '+'] ++
    List.replicate (2 - size.length) '0' ++ size

/-- Whole numbers below ten to this power are written out in full. -/
def wholeLimit : Int := 21

/-- Fractions are written out when their leading power lies from -4 up to this one. -/
def fractionLimit : Int := 6

/-- Whether a number is written out, and not with a power of ten. -/
def isPositional (whole : Bool) (lead : Int) : Bool :=
  (whole && lead < wholeLimit) || (-4 ≤ lead && lead < fractionLimit)

/-- The decimal text of a number. -/
def toChars (x : Number) : List Char :=
  if x.isNaN then ['N', 'a', 'N']
  else if x.isInfinite then [if x.negative then '-' else '+', 'I', 'n', 'f']
  else
    let sign := if x.negative then ['-'] else []
    if x.magnitude = 0 then sign ++ ['0']
    else
      let (digits, lead) := (shortest x.magnitude).leadingDigits
      sign ++ if isPositional x.isWhole lead then positional digits lead
        else scientific digits lead

/-- The decimal text of a number as a string. -/
def render (x : Number) : String :=
  String.ofList x.toChars

end QLisp.Number
