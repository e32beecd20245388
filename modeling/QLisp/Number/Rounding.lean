import QLisp.Number.Basic

/-! Rounding a ratio of natural numbers to the nearest number, a tie going to the even neighbour. -/

namespace QLisp.Number

/-- The whole number nearest to a ratio, a tie going to the even neighbour. -/
def nearest (numerator denominator : Nat) : Nat :=
  let floor := numerator / denominator
  let twice := 2 * (numerator % denominator)
  -- The doubled remainder says on which side of the midpoint the ratio lies.
  if twice < denominator then floor
  else if denominator < twice then floor + 1
  else floor + floor % 2

/-- The power of two that separates neighbouring numbers around a whole count of units. -/
def spacing (units : Nat) : Nat :=
  -- A significand has one bit more than the fraction stores.
  units.log2 - fractionBits

/-- The magnitude bits of the number nearest to a ratio of units, infinite past the largest. -/
def roundUnits (numerator denominator : Nat) : Nat :=
  let step := spacing (numerator / denominator)
  -- A significand that rounds up to the next power of two carries into the exponent bits.
  Nat.min infiniteMagnitude
    (step * exponentWeight + nearest numerator (denominator * Nat.pow 2 step))

/-- The magnitude bits of the number nearest to a ratio. -/
def roundRatio (numerator denominator : Nat) : Nat :=
  roundUnits (numerator * unitsInOne) denominator

/-- The number nearest to a signed count of units, a zero count giving positive zero. -/
def ofSignedUnits (units : Int) : Number :=
  ofMagnitude (units < 0) (roundUnits units.natAbs 1)

/-- The number nearest to an integer. -/
def ofInt (n : Int) : Number :=
  ofMagnitude (n < 0) (roundRatio n.natAbs 1)

/-- The least signed machine word. -/
def leastWord : Int := -signWeight

/-- Whether an integer fits a signed machine word. -/
def fitsWord (n : Int) : Bool :=
  leastWord ≤ n && n < signWeight

/-- The integer left when the fraction is dropped; the least machine word stands for any other. -/
def truncate (x : Number) : Int :=
  let whole : Nat := x.units / unitsInOne
  let n : Int := if x.negative then -whole else whole
  if x.isFinite && fitsWord n then n else leastWord

end QLisp.Number
