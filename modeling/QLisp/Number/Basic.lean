/-!
Numbers: 64-bit binary floating point, read off the bits.

A finite number is a whole count of units of 2^-1074, the smallest positive number, so every
comparison and every exact sum, product or quotient is a statement about natural numbers.
-/

namespace QLisp

/-- A 64-bit floating point number, held as its interchange bits. -/
structure Number where
  /-- The sign bit, eleven exponent bits and fifty-two fraction bits, from the top. -/
  bits : UInt64
  deriving DecidableEq, Repr, Inhabited

namespace Number

/-- The number of fraction bits of a normal significand. -/
def fractionBits : Nat := 52

/-- The weight of the lowest exponent bit, which is also the leading bit of a normal significand. -/
def exponentWeight : Nat := Nat.pow 2 fractionBits

/-- The weight of the sign bit. -/
def signWeight : Nat := Nat.pow 2 63

/-- The number of units of 2^-1074 in one. -/
def unitsInOne : Nat := Nat.pow 2 1074

/-- The magnitude bits of an infinity; a larger magnitude is not a number. -/
def infiniteMagnitude : Nat := 0x7FF * exponentWeight

/-- Whether the sign bit is set. -/
def negative (x : Number) : Bool :=
  signWeight ≤ x.bits.toNat

/-- The bits below the sign. -/
def magnitude (x : Number) : Nat :=
  x.bits.toNat % signWeight

/-- Whether the bits stand for no number at all. -/
def isNaN (x : Number) : Bool :=
  infiniteMagnitude < x.magnitude

/-- Whether the number is an infinity. -/
def isInfinite (x : Number) : Bool :=
  x.magnitude = infiniteMagnitude

/-- Whether the number is neither an infinity nor a NaN. -/
def isFinite (x : Number) : Bool :=
  x.magnitude < infiniteMagnitude

/-- The number with the given sign and magnitude bits. -/
def ofMagnitude (negative : Bool) (magnitude : Nat) : Number :=
  ⟨UInt64.ofNat (magnitude + if negative then signWeight else 0)⟩

/-- How many units of 2^-1074 finite magnitude bits stand for. -/
def unitsOf (magnitude : Nat) : Nat :=
  -- Below the first normal number the bits count units; above it the exponent scales them.
  if magnitude < exponentWeight then magnitude
  else (magnitude % exponentWeight + exponentWeight) * Nat.pow 2 (magnitude / exponentWeight - 1)

/-- The absolute value of a finite number in units of 2^-1074. -/
def units (x : Number) : Nat :=
  unitsOf x.magnitude

/-- A finite number in units of 2^-1074. -/
def signedUnits (x : Number) : Int :=
  if x.negative then -(x.units : Int) else x.units

/-- Positive zero. -/
def zero : Number := ofMagnitude false 0

/-- A value that is not a number. -/
def nan : Number := ofMagnitude false (infiniteMagnitude + exponentWeight / 2)

/-- The infinity of the given sign. -/
def infinity (negative : Bool) : Number := ofMagnitude negative infiniteMagnitude

/-- The position of a number on the line, with both zeros at the same place. -/
def rank (x : Number) : Int :=
  -- Magnitude bits grow with the value, so they order the numbers of one sign.
  if x.negative then -(x.magnitude : Int) else x.magnitude

/-- The ordering of numbers, in which a NaN equals itself and stands below everything else. -/
def order (x y : Number) : Ordering :=
  match x.isNaN, y.isNaN with
  | true, true => .eq
  | true, false => .lt
  | false, true => .gt
  | false, false => compare x.rank y.rank

/-- Equality of numbers, in which the zeros are equal and a NaN equals nothing. -/
def equal (x y : Number) : Bool :=
  !x.isNaN && !y.isNaN && x.rank == y.rank

/-- Whether a number counts as true, as every number but the zeros does. -/
def isTruthy (x : Number) : Bool :=
  x.magnitude ≠ 0

/-- Whether a number is finite and whole. -/
def isWhole (x : Number) : Bool :=
  x.isFinite && x.units % unitsInOne = 0

end Number
end QLisp
