import LoxLexis.Proofs.ReadBackDecimals
import Mathlib

/-! Mantissas of fifty-three bits, rounded from a number of units, and the magnitudes that they
make. -/
namespace LoxLexis

private theorem abs_roundHalfEven_sub (dividend : Nat) {divisor : Nat} (hdivisor : 0 < divisor) :
    |(roundHalfEven dividend divisor : ℚ) - dividend / divisor| < 1 / 2 ∨
      |(roundHalfEven dividend divisor : ℚ) - dividend / divisor| = 1 / 2 ∧
        roundHalfEven dividend divisor % 2 = 0 := by
  have hpos : (0 : ℚ) < divisor := Nat.cast_pos.mpr hdivisor
  have hsplit : (divisor : ℚ) * (dividend / divisor : ℕ) + (dividend % divisor : ℕ) = dividend := by
    exact_mod_cast Nat.div_add_mod dividend divisor
  have hrest := Nat.mod_lt dividend hdivisor
  simp only [roundHalfEven]
  generalize dividend / divisor = floor at hsplit
  generalize dividend % divisor = rest at hsplit hrest
  have hquotient : (dividend : ℚ) / divisor = floor + rest / divisor := by
    rw [← hsplit]
    field_simp
  have hnonneg : (0 : ℚ) ≤ rest / divisor := by positivity
  have hone : (rest : ℚ) / divisor < 1 := (div_lt_one hpos).mpr (Nat.cast_lt.mpr hrest)
  rw [hquotient]
  rcases lt_trichotomy (2 * rest) divisor with hbelow | heq | habove
  · have hpart : (rest : ℚ) / divisor < 1 / 2 := by
      rw [div_lt_div_iff₀ hpos two_pos]
      exact_mod_cast (by omega : rest * 2 < 1 * divisor)
    rw [if_pos hbelow]
    refine Or.inl (abs_lt.mpr ⟨?_, ?_⟩) <;> linarith
  · have hpart : (rest : ℚ) / divisor = 1 / 2 := by
      rw [div_eq_div_iff hpos.ne' two_ne_zero]
      exact_mod_cast (by omega : rest * 2 = 1 * divisor)
    rw [if_neg (by omega), if_neg (by omega), hpart]
    refine Or.inr ⟨?_, by omega⟩
    rcases Nat.mod_two_eq_zero_or_one floor with hfloor | hfloor <;> rw [hfloor] <;> norm_num
  · have hpart : 1 / 2 < (rest : ℚ) / divisor := by
      rw [div_lt_div_iff₀ two_pos hpos]
      exact_mod_cast (by omega : 1 * divisor < rest * 2)
    rw [if_neg (by omega), if_pos habove]
    push_cast
    refine Or.inl (abs_lt.mpr ⟨?_, ?_⟩) <;> linarith

/-- No other whole number is nearer to the quotient, and if one is as near the number is even. -/
theorem roundHalfEven_nearest (dividend : Nat) {divisor : Nat} (hdivisor : 0 < divisor) {k : Nat}
    (hk : k ≠ roundHalfEven dividend divisor) :
    |(roundHalfEven dividend divisor : ℚ) - dividend / divisor| < |(k : ℚ) - dividend / divisor| ∨
      |(roundHalfEven dividend divisor : ℚ) - dividend / divisor| =
        |(k : ℚ) - dividend / divisor| ∧ roundHalfEven dividend divisor % 2 = 0 := by
  have hround := abs_roundHalfEven_sub dividend hdivisor
  generalize roundHalfEven dividend divisor = n at hk hround
  generalize (dividend : ℚ) / divisor = r at hround
  have hapart : (1 : ℚ) ≤ |(k : ℚ) - n| := by
    have hint : (1 : ℤ) ≤ |(k : ℤ) - n| := Int.one_le_abs (by omega)
    exact_mod_cast hint
  have htriangle : |(k : ℚ) - n| ≤ |(k : ℚ) - r| + |(n : ℚ) - r| := by
    rw [abs_sub_comm (n : ℚ) r]
    exact abs_sub_le _ _ _
  rcases hround with hnear | ⟨hnear, heven⟩
  · exact Or.inl (by linarith)
  · rcases lt_or_eq_of_le (by linarith : |(n : ℚ) - r| ≤ |(k : ℚ) - r|) with hlt | heq
    · exact Or.inl hlt
    · exact Or.inr ⟨heq, heven⟩

namespace Binary64
variable {x y : Binary64} {coarseness mantissa : Nat}

/-- The magnitude is a mantissa of at most fifty-three bits on a grid of `2 ^ coarseness` units, and
all bits are needed where a step is more than one unit. -/
structure OnGrid (x : Binary64) (coarseness mantissa : Nat) : Prop where
  pattern : x.magnitude = coarseness * 2 ^ 52 + mantissa
  upper : mantissa ≤ 2 ^ 53
  lower : coarseness = 0 ∨ 2 ^ 52 ≤ mantissa

theorem units_of_subnormal (h : x.magnitude < 2 ^ 52) : x.units = x.magnitude := by
  have hpow : Nat.pow 2 52 = 2 ^ 52 := rfl
  simp only [units, hpow, Nat.div_eq_of_lt h, Nat.mod_eq_of_lt h, if_true]

theorem units_of_normal (hlow : 2 ^ 52 ≤ mantissa) (hhigh : mantissa < 2 ^ 53)
    (h : x.magnitude = coarseness * 2 ^ 52 + mantissa) :
    x.units = mantissa * 2 ^ coarseness := by
  have hpow : Nat.pow 2 52 = 2 ^ 52 := rfl
  have hdiv : x.magnitude / 2 ^ 52 = coarseness + 1 := by omega
  have hmod : x.magnitude % 2 ^ 52 + 2 ^ 52 = mantissa := by omega
  simp only [units, hpow, hdiv, hmod, Nat.succ_ne_zero, if_false, Nat.add_sub_cancel, Nat.pow_eq]

private theorem OnGrid.units_eq (h : x.OnGrid coarseness mantissa) :
    x.units = mantissa * 2 ^ coarseness := by
  obtain ⟨hpattern, hupper, hlower⟩ := h
  by_cases hsubnormal : mantissa < 2 ^ 52
  · obtain rfl : coarseness = 0 := by omega
    rw [units_of_subnormal (by omega), hpattern]
    omega
  · by_cases hcarry : mantissa = 2 ^ 53
    · -- The mantissa that is a power of two is the least on the next grid.
      have hnext : x.magnitude = (coarseness + 1) * 2 ^ 52 + 2 ^ 52 := by
        rw [hpattern, hcarry]
        ring
      rw [units_of_normal le_rfl (by omega) hnext, hcarry]
      ring
    · exact units_of_normal (by omega) (by omega) hpattern

private theorem exists_onGrid (x : Binary64) :
    ∃ coarseness mantissa, x.OnGrid coarseness mantissa ∧ mantissa < 2 ^ 53 := by
  by_cases hsubnormal : x.magnitude < 2 ^ 52
  · exact ⟨0, x.magnitude, ⟨by omega, by omega, Or.inl rfl⟩, by omega⟩
  · exact ⟨x.magnitude / 2 ^ 52 - 1, x.magnitude % 2 ^ 52 + 2 ^ 52,
      ⟨by omega, by omega, Or.inr (by omega)⟩, by omega⟩

/-- Magnitudes are ordered as their patterns are. -/
theorem units_lt_units (h : x.magnitude < y.magnitude) : x.units < y.units := by
  obtain ⟨c, m, hx, hm⟩ := x.exists_onGrid
  obtain ⟨d, n, hy, hn⟩ := y.exists_onGrid
  rw [hx.units_eq, hy.units_eq]
  obtain ⟨hxpattern, -, hxlower⟩ := hx
  obtain ⟨hypattern, -, hylower⟩ := hy
  rcases Nat.lt_trichotomy c d with hlt | rfl | hgt
  · have hsteps : 2 ^ (c + 1) ≤ 2 ^ d := Nat.pow_le_pow_right two_pos hlt
    calc m * 2 ^ c < 2 ^ 53 * 2 ^ c := (Nat.mul_lt_mul_right (Nat.two_pow_pos c)).mpr hm
      _ = 2 ^ 52 * 2 ^ (c + 1) := by rw [pow_succ 2 c]; omega
      _ ≤ n * 2 ^ d := Nat.mul_le_mul (by omega) hsteps
  · exact (Nat.mul_lt_mul_right (Nat.two_pow_pos c)).mpr (by omega)
  · omega

theorem units_lt_units_iff : x.units < y.units ↔ x.magnitude < y.magnitude := by
  refine ⟨fun h => ?_, units_lt_units⟩
  by_contra hle
  rcases Nat.lt_or_eq_of_le (Nat.not_lt.mp hle) with hlt | heq
  · exact absurd (units_lt_units hlt) (by omega)
  · have hunits : y.units = x.units := by simp only [units, heq]
    omega

theorem units_inj : x.units = y.units ↔ x.magnitude = y.magnitude := by
  have hlt := @units_lt_units_iff x y
  have hgt := @units_lt_units_iff y x
  omega

/-- A magnitude is on a coarser grid too, or below the least mantissa of all bits on it. -/
theorem exists_multiple_or_lt (x : Binary64) (coarseness : Nat) :
    (∃ k, x.units = k * 2 ^ coarseness) ∨
      coarseness ≠ 0 ∧ x.units < 2 ^ 52 * 2 ^ coarseness := by
  obtain ⟨c, m, hx, hm⟩ := x.exists_onGrid
  rw [hx.units_eq]
  rcases Nat.lt_or_ge c coarseness with hlt | hge
  · have hsteps : 2 ^ (c + 1) ≤ 2 ^ coarseness := Nat.pow_le_pow_right two_pos hlt
    refine Or.inr ⟨Nat.ne_zero_of_lt hlt, ?_⟩
    calc m * 2 ^ c < 2 ^ 53 * 2 ^ c := (Nat.mul_lt_mul_right (Nat.two_pow_pos c)).mpr hm
      _ = 2 ^ 52 * 2 ^ (c + 1) := by ring
      _ ≤ 2 ^ 52 * 2 ^ coarseness := Nat.mul_le_mul_left _ hsteps
  · refine Or.inl ⟨m * 2 ^ (c - coarseness), ?_⟩
    rw [mul_assoc, ← pow_add, Nat.sub_add_cancel hge]

/-- The mantissa that a number of units is rounded to, on the finest grid where fifty-three bits
suffice. -/
structure IsMantissa (u : ℚ) (coarseness mantissa : Nat) : Prop where
  upper : u < 2 ^ 53 * 2 ^ coarseness
  lower : coarseness = 0 ∨ 2 ^ 52 * 2 ^ coarseness ≤ u
  nearest : ∀ k : ℕ, k ≠ mantissa →
    |(mantissa : ℚ) - u / 2 ^ coarseness| < |(k : ℚ) - u / 2 ^ coarseness| ∨
      |(mantissa : ℚ) - u / 2 ^ coarseness| = |(k : ℚ) - u / 2 ^ coarseness| ∧ mantissa % 2 = 0

namespace IsMantissa
variable {u : ℚ}

private theorem abs_le (h : IsMantissa u coarseness mantissa) (k : ℕ) :
    |(mantissa : ℚ) - u / 2 ^ coarseness| ≤ |(k : ℚ) - u / 2 ^ coarseness| := by
  by_cases hk : k = mantissa
  · rw [hk]
  · exact (h.nearest k hk).elim le_of_lt fun heq => heq.1.le

private theorem quotient_lt (h : IsMantissa u coarseness mantissa) : u / 2 ^ coarseness < 2 ^ 53 :=
  (div_lt_iff₀ (by positivity)).mpr h.upper

private theorem le_two_pow (h : IsMantissa u coarseness mantissa) : mantissa ≤ 2 ^ 53 := by
  have hlt := h.quotient_lt
  have hnear := h.abs_le (2 ^ 53)
  generalize u / 2 ^ coarseness = r at hlt hnear
  rw [Nat.cast_pow, Nat.cast_ofNat, abs_of_pos (sub_pos.mpr hlt)] at hnear
  have hle : (mantissa : ℚ) ≤ (2 ^ 53 : ℕ) := by
    rw [Nat.cast_pow, Nat.cast_ofNat]
    linarith [le_abs_self ((mantissa : ℚ) - r)]
  exact Nat.cast_le.mp hle

private theorem two_pow_le (h : IsMantissa u coarseness mantissa) :
    coarseness = 0 ∨ 2 ^ 52 ≤ mantissa := by
  refine h.lower.imp_right fun hlower => ?_
  have hge : 2 ^ 52 ≤ u / 2 ^ coarseness := (le_div_iff₀ (by positivity)).mpr hlower
  have hnear := h.abs_le (2 ^ 52)
  generalize u / 2 ^ coarseness = r at hge hnear
  rw [Nat.cast_pow, Nat.cast_ofNat, abs_of_nonpos (sub_nonpos.mpr hge)] at hnear
  have hle : ((2 ^ 52 : ℕ) : ℚ) ≤ mantissa := by
    rw [Nat.cast_pow, Nat.cast_ofNat]
    linarith [neg_le_abs ((mantissa : ℚ) - r)]
  exact Nat.cast_le.mp hle

private theorem lt_two_pow_iff (h : IsMantissa u coarseness mantissa) :
    mantissa < 2 ^ 53 ↔ u / 2 ^ coarseness < 2 ^ 53 - 1 / 2 := by
  have hlt := h.quotient_lt
  have hle := h.le_two_pow
  have hbelow := h.abs_le
  have hnearest := h.nearest
  generalize u / 2 ^ coarseness = r at hlt hbelow hnearest
  constructor
  · intro hm
    have habove := hnearest (2 ^ 53) (Nat.ne_of_gt hm)
    rw [Nat.cast_pow, Nat.cast_ofNat, abs_of_pos (sub_pos.mpr hlt)] at habove
    have habs := neg_le_abs ((mantissa : ℚ) - r)
    rcases habove with hnear | ⟨hnear, heven⟩
    · have hcast : ((mantissa + 1 : ℕ) : ℚ) ≤ (2 ^ 53 : ℕ) := Nat.cast_le.mpr hm
      rw [Nat.cast_pow, Nat.cast_ofNat, Nat.cast_succ] at hcast
      linarith
    · have hcast : ((mantissa + 2 : ℕ) : ℚ) ≤ (2 ^ 53 : ℕ) := Nat.cast_le.mpr (by omega)
      rw [Nat.cast_pow, Nat.cast_ofNat, Nat.cast_add, Nat.cast_ofNat] at hcast
      linarith
  · intro hr
    by_contra hm
    have hmantissa : ((mantissa : ℕ) : ℚ) = 2 ^ 53 := by
      rw [Nat.le_antisymm hle (Nat.not_lt.mp hm), Nat.cast_pow, Nat.cast_ofNat]
    obtain ⟨k, rfl⟩ : ∃ k, mantissa = k + 1 := Nat.exists_eq_succ_of_ne_zero (by omega)
    rw [Nat.cast_succ] at hmantissa
    have hcloser : |(k : ℚ) - r| < |((k + 1 : ℕ) : ℚ) - r| := by
      rw [Nat.cast_succ, hmantissa, abs_of_pos (sub_pos.mpr hlt), abs_lt]
      constructor <;> linarith
    exact absurd (hbelow k) (not_le.mpr hcloser)

theorem onGrid (h : IsMantissa u coarseness mantissa)
    (hx : x.magnitude = coarseness * 2 ^ 52 + mantissa) : x.OnGrid coarseness mantissa :=
  ⟨hx, h.le_two_pow, h.two_pow_le⟩

/-- A mantissa that is nearest on its grid is nearest among all magnitudes. -/
theorem nearest_units (h : IsMantissa u coarseness mantissa) (hx : x.OnGrid coarseness mantissa)
    (hne : y.units ≠ x.units) :
    |(x.units : ℚ) - u| < |(y.units : ℚ) - u| ∨
      |(x.units : ℚ) - u| = |(y.units : ℚ) - u| ∧ mantissa % 2 = 0 := by
  have hstep : (0 : ℚ) < 2 ^ coarseness := by positivity
  have hscale (k : ℕ) : |((k * 2 ^ coarseness : ℕ) : ℚ) - u| =
      |(k : ℚ) - u / 2 ^ coarseness| * 2 ^ coarseness := by
    rw [← abs_of_pos hstep, ← abs_mul, abs_of_pos hstep, sub_mul, div_mul_cancel₀ _ hstep.ne']
    push_cast
    rfl
  have hgrid (k : ℕ) (hk : k ≠ mantissa) :
      |((mantissa * 2 ^ coarseness : ℕ) : ℚ) - u| < |((k * 2 ^ coarseness : ℕ) : ℚ) - u| ∨
        |((mantissa * 2 ^ coarseness : ℕ) : ℚ) - u| = |((k * 2 ^ coarseness : ℕ) : ℚ) - u| ∧
          mantissa % 2 = 0 := by
    rw [hscale, hscale, mul_lt_mul_iff_left₀ hstep, mul_left_inj' hstep.ne']
    exact h.nearest k hk
  rw [hx.units_eq] at hne ⊢
  rcases y.exists_multiple_or_lt coarseness with ⟨k, hk⟩ | ⟨hzero, hbelow⟩
  · rw [hk] at hne ⊢
    exact hgrid k fun he => hne (by rw [he])
  · -- The least mantissa of all bits lies between, and the rounded one is no farther off.
    have hleast : ((2 ^ 52 * 2 ^ coarseness : ℕ) : ℚ) ≤ u := by
      exact_mod_cast h.lower.resolve_left hzero
    have hlt : (y.units : ℚ) < (2 ^ 52 * 2 ^ coarseness : ℕ) := Nat.cast_lt.mpr hbelow
    have hle : |((mantissa * 2 ^ coarseness : ℕ) : ℚ) - u| ≤
        |((2 ^ 52 * 2 ^ coarseness : ℕ) : ℚ) - u| := by
      by_cases hsame : 2 ^ 52 = mantissa
      · rw [hsame]
      · exact (hgrid _ hsame).elim le_of_lt fun h => h.1.le
    rw [abs_of_nonpos (by linarith : ((2 ^ 52 * 2 ^ coarseness : ℕ) : ℚ) - u ≤ 0)] at hle
    refine Or.inl (hle.trans_lt ?_)
    rw [abs_of_nonpos (by linarith)]
    linarith

/-- The pattern stays below `exponent + 3` in its exponent just for numbers that are less than half
a step below the power of two that stands there. -/
theorem pattern_lt_iff (h : IsMantissa u coarseness mantissa) (exponent : Nat) :
    coarseness * 2 ^ 52 + mantissa < exponent * 2 ^ 52 + 3 * 2 ^ 52 ↔
      u < (2 ^ 54 - 1) * 2 ^ exponent := by
  have hstep : (0 : ℚ) < 2 ^ exponent := by positivity
  have hle := h.le_two_pow
  rcases Nat.lt_trichotomy coarseness (exponent + 1) with hlt | rfl | hgt
  · have hpow : (2 : ℚ) ^ coarseness ≤ 2 ^ exponent :=
      pow_le_pow_right₀ one_le_two (Nat.le_of_lt_succ hlt)
    have hupper := h.upper
    generalize (2 : ℚ) ^ coarseness = a at hpow hupper
    generalize (2 : ℚ) ^ exponent = b at hpow hstep
    exact iff_of_true (by omega) (by linarith)
  · have hcarry := h.lt_two_pow_iff
    rw [div_lt_iff₀ (by positivity), pow_succ (2 : ℚ) exponent] at hcarry
    generalize (2 : ℚ) ^ exponent = b at hcarry
    have hpattern : (exponent + 1) * 2 ^ 52 + mantissa < exponent * 2 ^ 52 + 3 * 2 ^ 52 ↔
        mantissa < 2 ^ 53 := by omega
    have hnumber : (2 ^ 53 - 1 / 2) * (b * 2) = (2 ^ 54 - 1) * b := by ring
    rw [hpattern, hcarry, hnumber]
  · have hpow : (2 : ℚ) ^ (exponent + 2) ≤ 2 ^ coarseness :=
      pow_le_pow_right₀ one_le_two hgt
    rw [pow_add] at hpow
    have hlower := h.lower.resolve_left (Nat.ne_zero_of_lt hgt)
    have hmantissa := h.two_pow_le.resolve_left (Nat.ne_zero_of_lt hgt)
    generalize (2 : ℚ) ^ coarseness = a at hpow hlower
    generalize (2 : ℚ) ^ exponent = b at hpow hstep
    exact iff_of_false (by omega) (by linarith)

end IsMantissa

/-- The grid is found from the whole number of units alone. -/
theorem isMantissa_roundHalfEven (numerator : Nat) {denominator : Nat} (h : 0 < denominator) :
    IsMantissa (numerator / denominator) ((numerator / denominator).log2 - 52)
      (roundHalfEven numerator (denominator * 2 ^ ((numerator / denominator).log2 - 52))) := by
  have hpos : (0 : ℚ) < denominator := Nat.cast_pos.mpr h
  have hlog : numerator / denominator < 2 ^ ((numerator / denominator).log2 + 1) :=
    Nat.lt_log2_self
  have hlow := @Nat.log2_self_le (numerator / denominator)
  have hzero : (numerator / denominator).log2 ≠ 0 → numerator / denominator ≠ 0 := by
    intro hne hz
    rw [hz] at hne
    exact hne Nat.log2_zero
  generalize (numerator / denominator).log2 = lead at hlog hlow hzero
  refine ⟨?_, ?_, fun k hk => ?_⟩
  · have hgrid : 2 ^ (lead + 1) ≤ 2 ^ 53 * 2 ^ (lead - 52) := by
      rw [← pow_add]
      exact Nat.pow_le_pow_right two_pos (by omega)
    have hlt := (Nat.div_lt_iff_lt_mul h).mp (hlog.trans_le hgrid)
    rw [div_lt_iff₀ hpos]
    exact_mod_cast hlt
  · by_cases hcoarse : lead - 52 = 0
    · exact Or.inl hcoarse
    · have hgrid : 2 ^ 52 * 2 ^ (lead - 52) = 2 ^ lead := by
        rw [← pow_add]
        congr 1
        omega
      have hle := (Nat.le_div_iff_mul_le h).mp (hlow (hzero (by omega)))
      rw [← hgrid] at hle
      refine Or.inr ((le_div_iff₀ hpos).mpr ?_)
      exact_mod_cast hle
  · have hnearest := roundHalfEven_nearest numerator
      (Nat.mul_pos h (Nat.two_pow_pos (lead - 52))) hk
    rw [Nat.cast_mul, Nat.cast_pow, Nat.cast_ofNat, ← div_div] at hnearest
    exact hnearest

end Binary64
end LoxLexis
