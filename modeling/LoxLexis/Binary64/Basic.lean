/-! Doubles as bit patterns: a question about one is a question about natural numbers. -/
namespace LoxLexis

/-- An IEEE 754 double, given by its sixty-four bits. -/
structure Binary64 where
  bits : UInt64
deriving DecidableEq, Repr, Inhabited

namespace Binary64

/-- The bit pattern of positive infinity. Finite magnitudes lie below it, NaNs above. -/
def infinityBits : Nat := 2047 * Nat.pow 2 52

def ofMagnitude (pattern : Nat) : Binary64 := ⟨UInt64.ofNat pattern⟩

/-- The sign bit. A zero and a NaN have one too. -/
def isNegative (x : Binary64) : Bool := Nat.pow 2 63 ≤ x.bits.toNat

/-- The bit pattern without its sign. Magnitudes are ordered as their patterns are. -/
def magnitude (x : Binary64) : Nat := x.bits.toNat % Nat.pow 2 63

def isNaN (x : Binary64) : Bool := infinityBits < x.magnitude

def isInfinite (x : Binary64) : Bool := x.magnitude == infinityBits

def isZero (x : Binary64) : Bool := x.magnitude == 0

/-- The whole number of units that a magnitude stands for, the unit being the least positive
double. Above the subnormal range the stored fraction lacks its leading bit. -/
def units (x : Binary64) : Nat :=
  let exponent := x.magnitude / Nat.pow 2 52
  let fraction := x.magnitude % Nat.pow 2 52
  if exponent = 0 then fraction else (fraction + Nat.pow 2 52) * Nat.pow 2 (exponent - 1)

def unitsPerOne : Nat := Nat.pow 2 1074

/-- Numerical equality: a NaN differs from everything, and the two zeros agree. -/
def equal (x y : Binary64) : Bool :=
  !x.isNaN && !y.isNaN && (x == y || (x.isZero && y.isZero))

theorem magnitude_lt (x : Binary64) : x.magnitude < Nat.pow 2 63 := Nat.mod_lt _ (by decide)

end Binary64
end LoxLexis
