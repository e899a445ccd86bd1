import LoxLexis.Binary64.NearestToRatio

/-! The shortest decimal that reads back as a given double. -/
namespace LoxLexis

/-- The number `significand * 10 ^ exponent`. -/
structure Decimal where
  significand : Nat
  exponent : Int
deriving DecidableEq, Repr

namespace Decimal

def toBinary64 (d : Decimal) : Binary64 :=
  Binary64.nearestToRatio (d.significand * Nat.pow 10 d.exponent.toNat)
    (Nat.pow 10 (-d.exponent).toNat)

/-- The same number without trailing zeros in its significand. -/
def trimmed (d : Decimal) : Decimal :=
  if 0 < d.significand ∧ d.significand % 10 = 0 then
    trimmed ⟨d.significand / 10, d.exponent + 1⟩
  else d
termination_by d.significand
decreasing_by exact Nat.div_lt_self (by omega) (by omega)

end Decimal

namespace Binary64

/-- The exponent of the power of ten that starts the decimal expansion of a positive ratio. -/
def leadingExponent (numerator denominator : Nat) : Int :=
  if denominator ≤ numerator then
    ((Nat.toDigits 10 (numerator / denominator)).length : Int) - 1
  else -((Nat.toDigits 10 ((denominator - 1) / numerator)).length : Int)

/-- One of two decimals that is found fit, and of two that are the nearer. -/
def choose? (isFit : Decimal → Bool) (belowIsNearer : Bool) (below above : Decimal) :
    Option Decimal :=
  match isFit below, isFit above with
  | true, true => if belowIsNearer then some below else some above
  | true, false => some below
  | false, true => some above
  | false, false => none

/-- The decimal of at most `digits` digits nearest to a magnitude among those that read back as
it, if there is one. Only the two neighbours on the decimal grid are tried: if any point of the
grid reads back, so does one of these. Of two equally near the larger is taken. -/
def withDigits? (x : Binary64) (digits : Nat) : Option Decimal :=
  let step := leadingExponent x.units unitsPerOne + 1 - digits
  let dividend := x.units * Nat.pow 10 (-step).toNat
  let divisor := unitsPerOne * Nat.pow 10 step.toNat
  choose? (·.toBinary64.magnitude == x.magnitude) (2 * (dividend % divisor) < divisor)
    ⟨dividend / divisor, step⟩ ⟨dividend / divisor + 1, step⟩

/-- Stated of the function: of its values it would have powers of ten computed. -/
theorem withDigits?_eq : withDigits? = fun (x : Binary64) (digits : Nat) =>
    let step := leadingExponent x.units unitsPerOne + 1 - digits
    let dividend := x.units * Nat.pow 10 (-step).toNat
    let divisor := unitsPerOne * Nat.pow 10 step.toNat
    choose? (·.toBinary64.magnitude == x.magnitude) (2 * (dividend % divisor) < divisor)
      ⟨dividend / divisor, step⟩ ⟨dividend / divisor + 1, step⟩ := by
  delta withDigits?
  rfl

/-- All digits of a magnitude: a unit is `5 ^ 1074 / 10 ^ 1074`. -/
def exactDecimal (x : Binary64) : Decimal := ⟨x.units * Nat.pow 5 1074, -1074⟩

/-- The decimal of the fewest digits that reads back, and of those the nearest. Seventeen digits
tell any two doubles apart. -/
def fewestDigits (x : Binary64) : Decimal :=
  if x.isZero then ⟨0, 0⟩
  else (((List.range' 1 17).findSome? x.withDigits?).getD x.exactDecimal).trimmed

end Binary64
end LoxLexis
