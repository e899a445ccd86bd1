import LoxLexis.Binary64.FewestDigits
import Mathlib.Algebra.Group.Nat.Defs

/-! The decimal that is chosen for a finite double reads back as it. -/
namespace LoxLexis

private theorem roundHalfEven_mul_right (dividend divisor : Nat) {k : Nat} (hk : 0 < k) :
    roundHalfEven (dividend * k) (divisor * k) = roundHalfEven dividend divisor := by
  have hlt (a b : Nat) : a * k < b * k ↔ a < b := Nat.mul_lt_mul_right hk
  simp only [roundHalfEven, Nat.mul_div_mul_right _ _ hk, Nat.mul_mod_mul_right, ← Nat.mul_assoc,
    hlt]

namespace Binary64
variable {x y : Binary64}

theorem eq_of_magnitude_eq (hsign : x.isNegative = y.isNegative)
    (hmagnitude : x.magnitude = y.magnitude) : x = y := by
  have hpower : Nat.pow 2 63 = 9223372036854775808 := rfl
  have hx := x.bits.toNat_lt
  have hy := y.bits.toNat_lt
  simp only [isNegative, hpower, decide_eq_decide] at hsign
  simp only [magnitude, hpower] at hmagnitude
  have hbits : x.bits.toNat = y.bits.toNat := by omega
  exact congrArg Binary64.mk (UInt64.toNat_inj.mp hbits)

theorem magnitude_ofMagnitude {pattern : Nat} (h : pattern < Nat.pow 2 63) :
    (ofMagnitude pattern).magnitude = pattern := by
  have hword : pattern < 2 ^ 64 := Nat.lt_trans h (by decide)
  rw [magnitude, ofMagnitude, UInt64.toNat_ofNat', Nat.mod_eq_of_lt hword, Nat.mod_eq_of_lt h]

/-- Only the ratio counts, not the two numbers. -/
theorem nearestToRatio_mul_right (numerator denominator : Nat) {k : Nat} (hk : 0 < k) :
    nearestToRatio (numerator * k) (denominator * k) = nearestToRatio numerator denominator := by
  have hscaled : numerator * k * unitsPerOne = numerator * unitsPerOne * k :=
    Nat.mul_right_comm _ _ _
  have hdivisor (c : Nat) : denominator * k * c = denominator * c * k := Nat.mul_right_comm _ _ _
  simp only [nearestToRatio, hscaled, hdivisor, Nat.mul_div_mul_right _ _ hk,
    roundHalfEven_mul_right _ _ hk]

theorem unitsPerOne_pos : 0 < unitsPerOne := by decide +kernel

private theorem log2_subnormal {fraction : Nat} (h : fraction < Nat.pow 2 52) :
    fraction.log2 ≤ 52 := by
  by_cases hzero : fraction = 0
  · rw [hzero, Nat.log2_zero]
    exact Nat.zero_le _
  · exact Nat.le_of_lt ((Nat.log2_lt hzero).mpr h)

private theorem log2_normal {fraction : Nat} (h : fraction < Nat.pow 2 52) (exponent : Nat) :
    ((fraction + Nat.pow 2 52) * Nat.pow 2 exponent).log2 = 52 + exponent := by
  have hpos : 0 < 2 ^ exponent := Nat.pow_pos (by decide)
  have hlow : 2 ^ 52 * 2 ^ exponent ≤ (fraction + 2 ^ 52) * 2 ^ exponent :=
    Nat.mul_le_mul_right _ (Nat.le_add_left _ _)
  have hhigh : (fraction + 2 ^ 52) * 2 ^ exponent < 2 ^ 53 * 2 ^ exponent :=
    (Nat.mul_lt_mul_right hpos).mpr (Nat.add_lt_add_right h _)
  have hne : (fraction + 2 ^ 52) * 2 ^ exponent ≠ 0 :=
    Nat.ne_of_gt (Nat.lt_of_lt_of_le (Nat.mul_pos (by decide) hpos) hlow)
  refine (Nat.log2_eq_iff hne).mpr ⟨?_, ?_⟩
  · rwa [Nat.pow_add]
  · rwa [Nat.add_right_comm, Nat.pow_add]

/-- A finite magnitude is the nearest to itself. -/
theorem nearestToRatio_units (h : x.magnitude < infinityBits) :
    nearestToRatio x.units unitsPerOne = ofMagnitude x.magnitude := by
  have hround (c : Nat) : roundHalfEven (x.units * unitsPerOne) (unitsPerOne * c) =
      roundHalfEven x.units c := by
    rw [Nat.mul_comm unitsPerOne, roundHalfEven_mul_right _ _ unitsPerOne_pos]
  rw [nearestToRatio, Nat.mul_div_cancel _ unitsPerOne_pos, hround]
  have hsplit := Nat.div_add_mod' x.magnitude (Nat.pow 2 52)
  have hfraction : x.magnitude % Nat.pow 2 52 < Nat.pow 2 52 := Nat.mod_lt _ (by decide)
  simp only [units]
  generalize x.magnitude / Nat.pow 2 52 = exponent at hsplit
  generalize x.magnitude % Nat.pow 2 52 = fraction at hsplit hfraction
  rw [← hsplit] at h ⊢
  cases exponent with
  | zero =>
    rw [if_pos rfl, Nat.sub_eq_zero_of_le (log2_subnormal hfraction)]
    have hexact : roundHalfEven fraction (Nat.pow 2 0) = fraction := roundHalfEven_one fraction
    rw [hexact, Nat.min_eq_left (Nat.le_of_lt h)]
  | succ exponent =>
    have hpos : 0 < Nat.pow 2 exponent := Nat.pow_pos (by decide)
    have hexact := roundHalfEven_mul_right (fraction + Nat.pow 2 52) 1 hpos
    rw [Nat.one_mul, roundHalfEven_one] at hexact
    have hcarry : exponent * Nat.pow 2 52 + (fraction + Nat.pow 2 52) =
        (exponent + 1) * Nat.pow 2 52 + fraction := by
      rw [Nat.succ_mul, Nat.add_assoc, Nat.add_comm fraction]
    rw [if_neg (Nat.succ_ne_zero _), Nat.add_sub_cancel, log2_normal hfraction,
      Nat.add_sub_cancel_left, hexact, hcarry, Nat.min_eq_left (Nat.le_of_lt h)]

end Binary64

namespace Decimal

theorem toBinary64_natCast (significand exponent : Nat) :
    toBinary64 ⟨significand, exponent⟩ =
      Binary64.nearestToRatio (significand * Nat.pow 10 exponent) 1 := by
  have hplaces : (-(exponent : Int)).toNat = 0 := by omega
  simp only [toBinary64, hplaces, Int.toNat_natCast]

theorem toBinary64_neg_natCast (significand places : Nat) :
    toBinary64 ⟨significand, -places⟩ =
      Binary64.nearestToRatio significand (Nat.pow 10 places) := by
  have hexponent : (-(places : Int)).toNat = 0 := by omega
  have hone : significand * Nat.pow 10 0 = significand := Nat.mul_one _
  simp only [toBinary64, hexponent, Int.neg_neg, Int.toNat_natCast, hone]

private theorem toBinary64_mul_ten (significand : Nat) (exponent : Int) :
    toBinary64 ⟨significand * 10, exponent⟩ = toBinary64 ⟨significand, exponent + 1⟩ := by
  cases exponent with
  | ofNat n =>
    have hpower : significand * 10 * Nat.pow 10 n = significand * Nat.pow 10 (n + 1) := by
      rw [Nat.mul_assoc, Nat.mul_comm 10]
      rfl
    have hone : Int.ofNat n + 1 = ((n + 1 : Nat) : Int) := rfl
    rw [hone, toBinary64_natCast, ← hpower]
    exact toBinary64_natCast _ n
  | negSucc n =>
    have hnext : Int.negSucc n = -((n + 1 : Nat) : Int) := rfl
    have hone : Int.negSucc n + 1 = -(n : Int) := by omega
    rw [hone, hnext, toBinary64_neg_natCast, toBinary64_neg_natCast]
    exact Binary64.nearestToRatio_mul_right _ _ (by decide)

private theorem toBinary64_fives (units places : Nat) :
    toBinary64 ⟨units * Nat.pow 5 places, -places⟩ =
      Binary64.nearestToRatio units (Nat.pow 2 places) := by
  have htens : Nat.pow 10 places = Nat.pow 2 places * Nat.pow 5 places := Nat.mul_pow 2 5 places
  have hfives : 0 < Nat.pow 5 places := Nat.pow_pos (by decide)
  rw [toBinary64_neg_natCast, htens, Binary64.nearestToRatio_mul_right _ _ hfives]

private theorem toBinary64_trimmed (d : Decimal) : d.trimmed.toBinary64 = d.toBinary64 := by
  fun_induction trimmed d with
  | case1 d h ih =>
    have htens : d.significand / 10 * 10 = d.significand :=
      Nat.div_mul_cancel (Nat.dvd_of_mod_eq_zero h.2)
    rw [ih, ← toBinary64_mul_ten, htens]
  | case2 => rfl

end Decimal

namespace Binary64
variable {x : Binary64} {d : Decimal}

private theorem of_choose?_eq_some {isFit : Decimal → Bool} {belowIsNearer : Bool}
    {below above : Decimal}
    (h : choose? isFit belowIsNearer below above = some d) :
    (d = below ∨ d = above) ∧ isFit d = true := by
  unfold choose? at h
  split at h
  case h_1 hbelow habove =>
    split at h <;> obtain rfl := Option.some.inj h
    · exact ⟨Or.inl rfl, hbelow⟩
    · exact ⟨Or.inr rfl, habove⟩
  case h_2 hbelow _ =>
    obtain rfl := Option.some.inj h
    exact ⟨Or.inl rfl, hbelow⟩
  case h_3 _ habove =>
    obtain rfl := Option.some.inj h
    exact ⟨Or.inr rfl, habove⟩
  case h_4 => cases h

/-- What is found with some number of digits ends in the place that they reach to, and reads
back. -/
theorem withDigits?_spec {digits : Nat} (h : x.withDigits? digits = some d) :
    d.exponent = leadingExponent x.units unitsPerOne + 1 - digits ∧
      d.toBinary64.magnitude = x.magnitude := by
  rw [withDigits?_eq] at h
  obtain ⟨hchosen, hread⟩ := of_choose?_eq_some h
  exact ⟨hchosen.elim (congrArg Decimal.exponent) (congrArg Decimal.exponent), beq_iff_eq.mp hread⟩

/-- All digits of a magnitude are read back as it. -/
theorem toBinary64_exactDecimal (h : x.magnitude < infinityBits) :
    x.exactDecimal.toBinary64 = ofMagnitude x.magnitude :=
  (Decimal.toBinary64_fives x.units 1074).trans (nearestToRatio_units h)

/-- The decimal of the fewest digits is read back as the magnitude that it is chosen for. -/
theorem magnitude_fewestDigits (h : x.magnitude < infinityBits) :
    x.fewestDigits.toBinary64.magnitude = x.magnitude := by
  unfold fewestDigits
  split
  case isTrue hzero =>
    obtain hzero : x.magnitude = 0 := beq_iff_eq.mp hzero
    rw [hzero]
    decide +kernel
  case isFalse hzero =>
    rw [Decimal.toBinary64_trimmed]
    cases hfound : (List.range' 1 17).findSome? x.withDigits? with
    | none =>
      rw [Option.getD_none, toBinary64_exactDecimal h, magnitude_ofMagnitude x.magnitude_lt]
    | some d =>
      obtain ⟨digits, -, hd⟩ := List.exists_of_findSome?_eq_some hfound
      exact (withDigits?_spec hd).2

end Binary64
end LoxLexis
