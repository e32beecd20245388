import QLisp.Number.Rounding

/-! Arithmetic on numbers: the exact result, rounded once to the nearest number. -/

namespace QLisp.Number

/-- The number with the opposite sign. -/
def neg (x : Number) : Number :=
  ofMagnitude (!x.negative) x.magnitude

/-- The sum, with a zero sum negative only when both terms are negative zeros. -/
def add (x y : Number) : Number :=
  if x.isNaN || y.isNaN then nan
  else if x.isInfinite then
    -- Opposite infinities have no sum.
    if y.isInfinite && x.negative != y.negative then nan else x
  else if y.isInfinite then y
  else
    let sum := x.signedUnits + y.signedUnits
    if sum = 0 then ofMagnitude (x.negative && y.negative) 0
    else ofSignedUnits sum

/-- The difference, as the sum with the opposite number. -/
def sub (x y : Number) : Number :=
  add x y.neg

/-- The product, whose sign is negative when exactly one factor is. -/
def mul (x y : Number) : Number :=
  let negative := x.negative != y.negative
  if x.isNaN || y.isNaN then nan
  else if x.isInfinite || y.isInfinite then
    -- An infinity times zero has no value.
    if x.magnitude = 0 || y.magnitude = 0 then nan else infinity negative
  else ofMagnitude negative (roundUnits (x.units * y.units) unitsInOne)

/-- The quotient, whose sign is negative when exactly one operand is. -/
def div (x y : Number) : Number :=
  let negative := x.negative != y.negative
  if x.isNaN || y.isNaN then nan
  else if x.isInfinite then
    if y.isInfinite then nan else infinity negative
  else if y.isInfinite then ofMagnitude negative 0
  else if y.magnitude = 0 then
    if x.magnitude = 0 then nan else infinity negative
  else ofMagnitude negative (roundRatio x.units y.units)

/-- The remainder of truncated division of the truncated operands; the divisor is not zero. -/
def rem (x y : Number) : Number :=
  ofInt (x.truncate.tmod y.truncate)

end QLisp.Number
