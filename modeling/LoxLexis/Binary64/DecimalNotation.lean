import LoxLexis.Binary64.FewestDigits

/-! Writing a double in decimal: positional within a range of magnitudes, with an exponent
outside it. -/
namespace LoxLexis

/-- How decimals are written: which magnitudes positionally, and the texts for what has no
digits. -/
structure DecimalStyle where
  positionalFrom : Binary64
  positionalBelow : Binary64
  exponentMark : Char
  infinity : List Char
  notANumber : List Char

namespace Decimal

/-- Positional notation, with at least one digit on each side of the point. -/
def positional (d : Decimal) : List Char :=
  let digits := Nat.toDigits 10 d.significand
  let places := (-d.exponent).toNat
  if places = 0 then digits ++ List.replicate d.exponent.toNat '0' ++ ['.', '0']
  else if places < digits.length then
    digits.take (digits.length - places) ++ '.' :: digits.drop (digits.length - places)
  else '0' :: '.' :: List.replicate (places - digits.length) '0' ++ digits

/-- One digit before the point and an exponent. A lone digit takes no point. -/
def scientific (mark : Char) (d : Decimal) : List Char :=
  let digits := Nat.toDigits 10 d.significand
  let fraction := digits.drop 1
  let exponent := d.exponent + fraction.length
  digits.take 1 ++ (if fraction.isEmpty then [] else '.' :: fraction) ++ [mark] ++
    (if exponent < 0 then ['-'] else []) ++ Nat.toDigits 10 exponent.natAbs

end Decimal

namespace Binary64

/-- Whether a magnitude is written positionally. Zero is. -/
def isPositional (style : DecimalStyle) (x : Binary64) : Bool :=
  x.isZero ||
    (style.positionalFrom.magnitude ≤ x.magnitude && x.magnitude < style.positionalBelow.magnitude)

/-- A minus sign stands before every negative double, also before a zero. A NaN shows no sign. -/
def write (style : DecimalStyle) (x : Binary64) : List Char :=
  if x.isNaN then style.notANumber
  else
    (if x.isNegative then ['-'] else []) ++
      (if x.isInfinite then style.infinity
        else if x.isPositional style then x.fewestDigits.positional
        else x.fewestDigits.scientific style.exponentMark)

end Binary64
end LoxLexis
