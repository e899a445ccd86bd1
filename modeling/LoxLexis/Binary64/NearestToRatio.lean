import LoxLexis.Binary64.Basic

/-! The double nearest to a non-negative ratio, a tie going to the even neighbour. -/
namespace LoxLexis

/-- The quotient rounded to the nearest whole number, a half to the even one. -/
def roundHalfEven (dividend divisor : Nat) : Nat :=
  let floor := dividend / divisor
  let rest := dividend % divisor
  if 2 * rest < divisor then floor
  else if divisor < 2 * rest then floor + 1
  else floor + floor % 2

theorem roundHalfEven_one (n : Nat) : roundHalfEven n 1 = n := by
  simp [roundHalfEven, Nat.mod_one]

namespace Binary64

/-- The ratio is taken in units of the least positive double. Of those, fifty-three significant
bits are kept: the grid doubles with each bit beyond them. A mantissa that rounds up to the next
power of two carries into the exponent by itself, and one past the last finite double ends at
infinity. -/
def nearestToRatio (numerator denominator : Nat) : Binary64 :=
  let scaled := numerator * unitsPerOne
  let coarseness := (scaled / denominator).log2 - 52
  let mantissa := roundHalfEven scaled (denominator * Nat.pow 2 coarseness)
  ofMagnitude (min (coarseness * Nat.pow 2 52 + mantissa) infinityBits)

end Binary64
end LoxLexis
