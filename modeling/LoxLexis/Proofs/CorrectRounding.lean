import LoxLexis.Proofs.RoundedMantissas

/-! Rounding to the nearest double as IEEE 754 has it. It is what ratios are rounded by, it gives
one result, and it keeps the order. -/
namespace LoxLexis
namespace Binary64
variable {x y : Binary64}

/-- The number that a finite double stands for. -/
def toRat (x : Binary64) : ℚ :=
  if x.isNegative then -(x.units / unitsPerOne) else x.units / unitsPerOne

/-- The number that a double stands for, with infinity above all others. Of the doubles below zero
and the NaNs it says nothing. -/
def value (x : Binary64) : WithTop ℚ := if x.isInfinite then ⊤ else (x.toRat : ℚ)

def overflowBound : ℚ := 2 ^ 1024 - 2 ^ 970

/-- Every other finite double is farther off, or as far off while the last bit of this one is
even. -/
structure IsNearest (q : ℚ) (x : Binary64) : Prop where
  finite : x.magnitude < infinityBits
  nearest : ∀ y : Binary64, y.magnitude < infinityBits → y ≠ x →
    |x.toRat - q| < |y.toRat - q| ∨ |x.toRat - q| = |y.toRat - q| ∧ x.bits.toNat % 2 = 0

/-- Rounding a rational that is not negative to the nearest double, a tie to the even one, as IEEE
754 has it. What would round to a number past the last finite double is infinite. -/
inductive RoundsTo (q : ℚ) : Binary64 → Prop where
  | nearest {x : Binary64} : q < overflowBound → x.isNegative = false → IsNearest q x → RoundsTo q x
  | overflow {x : Binary64} : overflowBound ≤ q → x.isNegative = false → x.isInfinite = true →
      RoundsTo q x

theorem toRat_of_nonneg (h : x.isNegative = false) : x.toRat = x.units / unitsPerOne := by
  rw [toRat, h, if_neg Bool.false_ne_true]

private theorem toRat_of_neg (h : x.isNegative = true) : x.toRat = -(x.units / unitsPerOne) := by
  rw [toRat, h, if_pos rfl]

private theorem isNegative_ofMagnitude {pattern : Nat} (h : pattern < Nat.pow 2 63) :
    (ofMagnitude pattern).isNegative = false := by
  have hword : pattern < 2 ^ 64 := Nat.lt_trans h (by decide)
  rw [isNegative, ofMagnitude, UInt64.toNat_ofNat', Nat.mod_eq_of_lt hword]
  exact decide_eq_false (Nat.not_le.mpr h)

private theorem ofMagnitude_magnitude (h : x.isNegative = false) : ofMagnitude x.magnitude = x :=
  eq_of_magnitude_eq ((isNegative_ofMagnitude x.magnitude_lt).trans h.symm)
    (magnitude_ofMagnitude x.magnitude_lt)

private theorem bits_of_nonneg (h : x.isNegative = false) : x.bits.toNat = x.magnitude := by
  rw [magnitude, Nat.mod_eq_of_lt (Nat.not_le.mp (of_decide_eq_false h))]

theorem unitsPerOne_cast_pos : (0 : ℚ) < unitsPerOne := Nat.cast_pos.mpr unitsPerOne_pos

private theorem abs_toRat_sub (h : x.isNegative = false) (q : ℚ) :
    |x.toRat - q| = |(x.units : ℚ) - q * unitsPerOne| / unitsPerOne := by
  have hpos := unitsPerOne_cast_pos
  have hscale : x.toRat - q = (x.units - q * unitsPerOne) / unitsPerOne := by
    rw [toRat_of_nonneg h, sub_div, mul_div_cancel_right₀ _ hpos.ne']
  rw [hscale, abs_div, abs_of_pos hpos]

private theorem abs_toRat_sub_of_neg (h : x.isNegative = true) {q : ℚ} (hq : 0 ≤ q) :
    q ≤ |x.toRat - q| := by
  have hunits : (0 : ℚ) ≤ x.units / unitsPerOne :=
    div_nonneg (Nat.cast_nonneg _) (Nat.cast_nonneg _)
  rw [toRat_of_neg h]
  generalize (x.units : ℚ) / unitsPerOne = v at hunits
  rw [abs_of_nonpos (by linarith)]
  linarith

private theorem units_zero : (ofMagnitude 0).units = 0 := by decide

private theorem abs_toRat_zero_sub {q : ℚ} (hq : 0 ≤ q) : |(ofMagnitude 0).toRat - q| = q := by
  rw [toRat_of_nonneg (by decide), units_zero, Nat.cast_zero, zero_div, zero_sub, abs_neg,
    abs_of_nonneg hq]

private theorem isNearest_of_nonneg {q : ℚ} (hq : 0 ≤ q) (hsign : x.isNegative = false)
    (hfinite : x.magnitude < infinityBits)
    (hnearest : ∀ y : Binary64, y.isNegative = false → y.units ≠ x.units →
      |(x.units : ℚ) - q * unitsPerOne| < |(y.units : ℚ) - q * unitsPerOne| ∨
        |(x.units : ℚ) - q * unitsPerOne| = |(y.units : ℚ) - q * unitsPerOne| ∧
          x.magnitude % 2 = 0) : IsNearest q x := by
  have hcompete (y : Binary64) (hy : y.isNegative = false) (hne : y.units ≠ x.units) :
      |x.toRat - q| < |y.toRat - q| ∨ |x.toRat - q| = |y.toRat - q| ∧ x.bits.toNat % 2 = 0 := by
    rw [abs_toRat_sub hsign, abs_toRat_sub hy, div_lt_div_iff_of_pos_right unitsPerOne_cast_pos,
      div_left_inj' unitsPerOne_cast_pos.ne', bits_of_nonneg hsign]
    exact hnearest y hy hne
  have hzero : |x.toRat - q| < q ∨ |x.toRat - q| = q ∧ x.bits.toNat % 2 = 0 := by
    by_cases hunits : (ofMagnitude 0).units = x.units
    · obtain rfl : ofMagnitude 0 = x :=
        eq_of_magnitude_eq (Eq.trans (by decide) hsign.symm) (units_inj.mp hunits)
      exact Or.inr ⟨abs_toRat_zero_sub hq, by decide⟩
    · have hcompared := hcompete (ofMagnitude 0) (by decide) hunits
      rwa [abs_toRat_zero_sub hq] at hcompared
  refine ⟨hfinite, fun y _ hne => ?_⟩
  cases hy : y.isNegative with
  | false =>
    refine hcompete y hy fun hunits => hne ?_
    exact eq_of_magnitude_eq (hy.trans hsign.symm) (units_inj.mp hunits)
  | true =>
    have hfar := abs_toRat_sub_of_neg hy hq
    rcases hzero with hlt | ⟨heq, heven⟩
    · exact Or.inl (hlt.trans_le hfar)
    · rw [heq]
      exact hfar.lt_or_eq.imp_right fun hsame => ⟨hsame, heven⟩

private theorem cast_natPow (n : ℕ) : ((Nat.pow 2 n : ℕ) : ℚ) = 2 ^ n := Nat.cast_pow 2 n

theorem unitsPerOne_cast : (unitsPerOne : ℚ) = 2 ^ 1074 := by
  delta unitsPerOne
  apply cast_natPow

private theorem overflowBound_mul_unitsPerOne :
    overflowBound * unitsPerOne = (2 ^ 54 - 1) * 2 ^ 2044 := by
  have hbound : overflowBound = (2 ^ 54 - 1) * 2 ^ 970 := by
    rw [overflowBound, sub_mul, ← pow_add, one_mul]
  rw [hbound, unitsPerOne_cast, mul_assoc, ← pow_add]

theorem roundsTo_nearestToRatio (numerator : Nat) {denominator : Nat} (h : 0 < denominator) :
    RoundsTo (numerator / denominator) (nearestToRatio numerator denominator) := by
  have hmantissa := isMantissa_roundHalfEven (numerator * unitsPerOne) h
  rw [Nat.cast_mul, mul_div_right_comm] at hmantissa
  have hnonneg : (0 : ℚ) ≤ numerator / denominator :=
    div_nonneg (Nat.cast_nonneg _) (Nat.cast_nonneg _)
  have hdefinition : nearestToRatio numerator denominator = ofMagnitude (min
      (((numerator * unitsPerOne / denominator).log2 - 52) * 2 ^ 52 +
        roundHalfEven (numerator * unitsPerOne)
          (denominator * 2 ^ ((numerator * unitsPerOne / denominator).log2 - 52)))
      infinityBits) := rfl
  rw [hdefinition]
  generalize roundHalfEven (numerator * unitsPerOne) _ = mantissa at hmantissa ⊢
  generalize (numerator * unitsPerOne / denominator).log2 - 52 = coarseness at hmantissa ⊢
  have hoverflow := hmantissa.pattern_lt_iff 2044
  have htop : 2044 * 2 ^ 52 + 3 * 2 ^ 52 = infinityBits := by decide
  rw [htop, ← overflowBound_mul_unitsPerOne, mul_lt_mul_iff_left₀ unitsPerOne_cast_pos] at hoverflow
  generalize (numerator : ℚ) / denominator = q at hmantissa hnonneg hoverflow ⊢
  by_cases hq : q < overflowBound
  · have hlt := hoverflow.mpr hq
    rw [Nat.min_eq_left hlt.le]
    have hsmall : coarseness * 2 ^ 52 + mantissa < Nat.pow 2 63 := hlt.trans (by decide)
    have hpattern := magnitude_ofMagnitude hsmall
    have hsign := isNegative_ofMagnitude hsmall
    generalize ofMagnitude (coarseness * 2 ^ 52 + mantissa) = x at hpattern hsign ⊢
    refine .nearest hq hsign (isNearest_of_nonneg hnonneg hsign (hpattern.trans_lt hlt) ?_)
    intro y _ hne
    have hparity : x.magnitude % 2 = mantissa % 2 := by omega
    rw [hparity]
    exact hmantissa.nearest_units (hmantissa.onGrid hpattern) hne
  · rw [Nat.min_eq_right (Nat.not_lt.mp fun hlt => hq (hoverflow.mp hlt))]
    exact .overflow (not_lt.mp hq) (by decide) (by decide)

theorem roundsTo_natCast (n : Nat) : RoundsTo n (nearestToRatio n 1) := by
  have hround := roundsTo_nearestToRatio n one_pos
  rwa [Nat.cast_one, div_one] at hround

private theorem toRat_lt_toRat (hx : x.isNegative = false) (hy : y.isNegative = false)
    (h : x.magnitude < y.magnitude) : x.toRat < y.toRat := by
  rw [toRat_of_nonneg hx, toRat_of_nonneg hy]
  exact div_lt_div_of_pos_right (Nat.cast_lt.mpr (units_lt_units h)) unitsPerOne_cast_pos

theorem toRat_le_toRat (hx : x.isNegative = false) (hy : y.isNegative = false)
    (h : x.magnitude ≤ y.magnitude) : x.toRat ≤ y.toRat := by
  rcases Nat.lt_or_eq_of_le h with hlt | heq
  · exact (toRat_lt_toRat hx hy hlt).le
  · rw [eq_of_magnitude_eq (hx.trans hy.symm) heq]

theorem toRat_lt_toRat_iff (hx : x.isNegative = false) (hy : y.isNegative = false) :
    x.toRat < y.toRat ↔ x.magnitude < y.magnitude := by
  refine ⟨fun h => ?_, toRat_lt_toRat hx hy⟩
  by_contra hle
  exact absurd (toRat_le_toRat hy hx (Nat.not_lt.mp hle)) (not_le.mpr h)

/-- A finite double is the nearest to what it stands for. -/
theorem roundsTo_toRat (hsign : x.isNegative = false) (hfinite : x.magnitude < infinityBits) :
    RoundsTo x.toRat x := by
  have hround := roundsTo_nearestToRatio x.units unitsPerOne_pos
  rwa [nearestToRatio_units hfinite, ofMagnitude_magnitude hsign, ← toRat_of_nonneg hsign] at hround

private theorem exists_mantissa {m : Nat} (hpos : m ≠ 0) (hm : m < 2 ^ 53) :
    ∃ shift ≤ 52, 2 ^ 52 ≤ m * 2 ^ shift ∧ m * 2 ^ shift < 2 ^ 53 := by
  have hlog : m.log2 < 53 := (Nat.log2_lt hpos).mpr hm
  refine ⟨52 - m.log2, Nat.sub_le _ _, ?_, ?_⟩
  · calc 2 ^ 52 = 2 ^ m.log2 * 2 ^ (52 - m.log2) := by
          rw [← pow_add, Nat.add_sub_cancel' (Nat.le_of_lt_succ hlog)]
      _ ≤ m * 2 ^ (52 - m.log2) := Nat.mul_le_mul_right _ (Nat.log2_self_le hpos)
  · calc m * 2 ^ (52 - m.log2) < 2 ^ (m.log2 + 1) * 2 ^ (52 - m.log2) :=
          (Nat.mul_lt_mul_right (Nat.two_pow_pos _)).mpr Nat.lt_log2_self
      _ = 2 ^ 53 := by
          rw [← pow_add]
          congr 1
          omega

private theorem exists_units_eq {m k : Nat} (hm : m < 2 ^ 53) (hlow : 52 ≤ k) (hhigh : k ≤ 2045) :
    ∃ pattern < infinityBits, (ofMagnitude pattern).units = m * 2 ^ k := by
  by_cases hzero : m = 0
  · exact ⟨0, by decide, by rw [hzero, Nat.zero_mul, units_zero]⟩
  · obtain ⟨shift, hshift, hleast, hmost⟩ := exists_mantissa hzero hm
    have hbits : 2 ^ k = 2 ^ shift * 2 ^ (k - shift) := by
      rw [← pow_add, Nat.add_sub_cancel' (hshift.trans hlow)]
    rw [hbits, ← Nat.mul_assoc]
    have hfinite : (k - shift) * 2 ^ 52 + m * 2 ^ shift < infinityBits := by
      have htop : infinityBits = 2045 * 2 ^ 52 + 2 * 2 ^ 52 := by decide
      omega
    have hsmall := hfinite.trans (by decide : infinityBits < Nat.pow 2 63)
    exact ⟨_, hfinite, units_of_normal hleast hmost (magnitude_ofMagnitude hsmall)⟩

/-- A whole number of at most fifty-three significant bits is a double. -/
theorem exists_toRat_eq {m k : Nat} (hm : m < 2 ^ 53) (hk : k ≤ 971) :
    ∃ x : Binary64, x.isNegative = false ∧ x.magnitude < infinityBits ∧
      x.toRat = (m * 2 ^ k : ℕ) := by
  have hlow : 52 ≤ k + 1074 := by omega
  obtain ⟨pattern, hfinite, hunits⟩ := exists_units_eq hm hlow (Nat.add_le_add_right hk 1074)
  have hsmall := hfinite.trans (by decide : infinityBits < Nat.pow 2 63)
  have hsign := isNegative_ofMagnitude hsmall
  refine ⟨ofMagnitude pattern, hsign, by rwa [magnitude_ofMagnitude hsmall], ?_⟩
  rw [toRat_of_nonneg hsign, hunits, pow_add, ← Nat.mul_assoc, Nat.cast_mul, Nat.cast_pow 2 1074,
    Nat.cast_ofNat, unitsPerOne_cast, mul_div_cancel_right₀ _ (by positivity)]

private theorem exists_between (hx : x.isNegative = false) (hy : y.isNegative = false)
    (h : x.magnitude + 1 < y.magnitude) :
    ∃ z : Binary64, z.magnitude < y.magnitude ∧ x.toRat < z.toRat ∧ z.toRat < y.toRat := by
  have hbound := h.trans y.magnitude_lt
  have hpattern := magnitude_ofMagnitude hbound
  have hsign := isNegative_ofMagnitude hbound
  refine ⟨ofMagnitude (x.magnitude + 1), by omega, ?_, ?_⟩
  · exact toRat_lt_toRat hx hsign (by omega)
  · exact toRat_lt_toRat hsign hy (by omega)

private theorem add_le_of_abs_sub_le {a b q : ℚ} (hab : a < b) (h : |b - q| ≤ |a - q|) :
    a + b ≤ 2 * q := by
  have hb := le_abs_self (b - q)
  rcases abs_choice (a - q) with ha | ha <;> rw [ha] at h <;> linarith

private theorem le_add_of_abs_sub_le {a b q : ℚ} (hab : a < b) (h : |a - q| ≤ |b - q|) :
    2 * q ≤ a + b := by
  have ha := neg_le_abs (a - q)
  rcases abs_choice (b - q) with hb | hb <;> rw [hb] at h <;> linarith

namespace IsNearest
variable {q r : ℚ}

private theorem abs_le (h : IsNearest q x) (hy : y.magnitude < infinityBits) :
    |x.toRat - q| ≤ |y.toRat - q| := by
  by_cases hne : y = x
  · rw [hne]
  · exact (h.nearest y hy hne).elim le_of_lt fun heq => heq.1.le

/-- A smaller rational is not nearest to a greater double. -/
theorem magnitude_le (hqr : q ≤ r) (hx : IsNearest q x) (hy : IsNearest r y)
    (hxsign : x.isNegative = false) (hysign : y.isNegative = false) :
    x.magnitude ≤ y.magnitude := by
  by_contra hlt
  rw [Nat.not_le] at hlt
  have hvalues := toRat_lt_toRat hysign hxsign hlt
  have hne : y ≠ x := fun he => absurd hlt (by rw [he]; exact Nat.lt_irrefl _)
  -- Both rationals are in the middle of the two, and both doubles have an even last bit.
  have hq := add_le_of_abs_sub_le hvalues (hx.abs_le hy.finite)
  have hr := le_add_of_abs_sub_le hvalues (hy.abs_le hx.finite)
  have hxeven : x.magnitude % 2 = 0 := by
    rw [← bits_of_nonneg hxsign]
    refine (hx.nearest y hy.finite hne).elim (fun hnear => ?_) And.right
    rw [abs_of_nonneg (by linarith), abs_of_nonpos (by linarith)] at hnear
    linarith
  have hyeven : y.magnitude % 2 = 0 := by
    rw [← bits_of_nonneg hysign]
    refine (hy.nearest x hx.finite hne.symm).elim (fun hnear => ?_) And.right
    rw [abs_of_nonpos (by linarith), abs_of_nonneg (by linarith)] at hnear
    linarith
  -- So another double stands between them, and nearer.
  obtain ⟨z, hz, hbelow, habove⟩ := exists_between hysign hxsign (by omega)
  have hnear := hx.abs_le (hz.trans hx.finite)
  rw [abs_of_nonneg (by linarith)] at hnear
  rcases abs_choice (z.toRat - q) with hz | hz <;> rw [hz] at hnear <;> linarith

end IsNearest

namespace RoundsTo
variable {q r : ℚ}

theorem isNegative_eq (h : RoundsTo q x) : x.isNegative = false := by
  cases h with
  | nearest _ hsign => exact hsign
  | overflow _ hsign => exact hsign

private theorem magnitude_le_infinityBits (h : RoundsTo q x) : x.magnitude ≤ infinityBits := by
  cases h with
  | nearest _ _ hnearest => exact hnearest.finite.le
  | overflow _ _ hinfinite => exact (beq_iff_eq.mp hinfinite).le

theorem isNaN_eq (h : RoundsTo q x) : x.isNaN = false :=
  decide_eq_false (Nat.not_lt.mpr h.magnitude_le_infinityBits)

theorem isInfinite_iff (h : RoundsTo q x) : x.isInfinite = true ↔ overflowBound ≤ q := by
  cases h with
  | nearest hq _ hnearest =>
    refine iff_of_false ?_ (not_le.mpr hq)
    rw [isInfinite, beq_iff_eq]
    exact hnearest.finite.ne
  | overflow hq _ hinfinite => exact iff_of_true hinfinite hq

theorem magnitude_le (hqr : q ≤ r) (hx : RoundsTo q x) (hy : RoundsTo r y) :
    x.magnitude ≤ y.magnitude := by
  cases hy with
  | overflow _ _ hinfinite =>
    rw [beq_iff_eq.mp hinfinite]
    exact hx.magnitude_le_infinityBits
  | nearest hr hysign hy =>
    cases hx with
    | nearest _ hxsign hx => exact hx.magnitude_le hqr hy hxsign hysign
    | overflow hq => exact absurd (hq.trans hqr) (not_le.mpr hr)

theorem eq_of_magnitude (h : RoundsTo q x) (hsign : y.isNegative = false)
    (hmagnitude : x.magnitude = y.magnitude) : x = y :=
  eq_of_magnitude_eq (h.isNegative_eq.trans hsign.symm) hmagnitude

theorem eq (hx : RoundsTo q x) (hy : RoundsTo q y) : x = y :=
  hx.eq_of_magnitude hy.isNegative_eq
    (Nat.le_antisymm (hx.magnitude_le le_rfl hy) (hy.magnitude_le le_rfl hx))

theorem eq_infinity_iff (h : RoundsTo q x) :
    x = ofMagnitude infinityBits ↔ overflowBound ≤ q := by
  rw [← h.isInfinite_iff]
  constructor
  · rintro rfl
    decide
  · intro hinfinite
    exact eq_of_magnitude_eq h.isNegative_eq (beq_iff_eq.mp hinfinite)

/-- A whole number of so few bits is rounded to itself. -/
theorem toRat_eq_of_bits {m k : Nat} (h : RoundsTo (m * 2 ^ k : ℕ) x) (hm : m < 2 ^ 53)
    (hk : k ≤ 971) : x.magnitude < infinityBits ∧ x.toRat = (m * 2 ^ k : ℕ) := by
  obtain ⟨y, hsign, hfinite, hy⟩ := exists_toRat_eq hm hk
  have hround := roundsTo_toRat hsign hfinite
  rw [hy] at hround
  rw [h.eq hround]
  exact ⟨hfinite, hy⟩

/-- What is greater is not rounded to less. -/
theorem value_le_value (hqr : q ≤ r) (hx : RoundsTo q x) (hy : RoundsTo r y) :
    x.value ≤ y.value := by
  by_cases hinfinite : y.isInfinite = true
  · rw [value, value, if_pos hinfinite]
    exact le_top
  · have hfinite : ¬x.isInfinite = true := fun hx' =>
      hinfinite (hy.isInfinite_iff.mpr ((hx.isInfinite_iff.mp hx').trans hqr))
    rw [value, value, if_neg hinfinite, if_neg hfinite, WithTop.coe_le_coe]
    exact toRat_le_toRat hx.isNegative_eq hy.isNegative_eq (hx.magnitude_le hqr hy)

private theorem le_of_magnitude_eq_zero (h : RoundsTo q x) (hx : x.magnitude = 0) :
    q ≤ 1 / 2 ^ 1075 := by
  have hhalf : (2 : ℚ) ^ 1075 = 2 ^ 1074 * 2 := pow_succ 2 1074
  cases h with
  | nearest _ hsign hnearest =>
    have hxunits : x.units = 0 := by rw [units_of_subnormal (by omega), hx]
    have hone : (ofMagnitude 1).units = 1 := by decide
    have hnext := hnearest.abs_le (by decide : (ofMagnitude 1).magnitude < infinityBits)
    rw [toRat_of_nonneg hsign, toRat_of_nonneg (by decide), hxunits, hone, Nat.cast_zero,
      zero_div, Nat.cast_one] at hnext
    have hmiddle := le_add_of_abs_sub_le (one_div_pos.mpr unitsPerOne_cast_pos) hnext
    rw [unitsPerOne_cast] at hmiddle
    rw [hhalf, ← div_div]
    generalize (1 : ℚ) / 2 ^ 1074 = unit at hmiddle
    linarith
  | overflow _ _ hinfinite =>
    rw [isInfinite, hx] at hinfinite
    exact absurd hinfinite (by decide)

private theorem roundsTo_half_unit : RoundsTo (1 / 2 ^ 1075) (ofMagnitude 0) := by
  obtain ⟨hpos, hresult⟩ : 0 < Nat.pow 2 1075 ∧
      nearestToRatio 1 (Nat.pow 2 1075) = ofMagnitude 0 := by decide +kernel
  have hcast : ((Nat.pow 2 1075 : ℕ) : ℚ) = 2 ^ 1075 := by apply cast_natPow
  have hround := roundsTo_nearestToRatio 1 hpos
  rwa [hresult, hcast, Nat.cast_one] at hround

theorem eq_zero_iff (h : RoundsTo q x) : x = ofMagnitude 0 ↔ q ≤ 1 / 2 ^ 1075 := by
  constructor
  · rintro rfl
    exact h.le_of_magnitude_eq_zero rfl
  · intro hq
    have hzero := h.magnitude_le hq roundsTo_half_unit
    exact eq_of_magnitude_eq h.isNegative_eq (Nat.le_zero.mp hzero)

end RoundsTo

end Binary64
end LoxLexis
