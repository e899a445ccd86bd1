import LoxLexis.Proofs.PositionalNumbers

/-! Whole numbers are written in full, with a zero behind the point, up to where the style goes over
to an exponent. -/
namespace LoxLexis

private theorem toDigits_mul_pow {n : Nat} (hn : 0 < n) (exponent : Nat) :
    Nat.toDigits 10 (n * 10 ^ exponent) =
      Nat.toDigits 10 n ++ List.replicate exponent '0' := by
  induction exponent with
  | zero => rw [pow_zero, Nat.mul_one, List.replicate_zero, List.append_nil]
  | succ exponent ih =>
    have hnext : n * 10 ^ (exponent + 1) = 10 * (n * 10 ^ exponent) + 0 := by ring
    have hzero : Nat.toDigits 10 0 = ['0'] := rfl
    rw [hnext, ← Nat.toDigits_append_toDigits (by decide) (by positivity) (by decide), ih, hzero,
      List.append_assoc, List.replicate_succ']

namespace Decimal
variable {d : Decimal} {exponent : Nat}

private theorem positional_natCast {significand : Nat} (hpos : 0 < significand) (exponent : Nat) :
    positional ⟨significand, exponent⟩ =
      Nat.toDigits 10 (significand * 10 ^ exponent) ++ ['.', '0'] := by
  have hplaces : (-(exponent : Int)).toNat = 0 := by omega
  rw [toDigits_mul_pow hpos]
  simp only [positional, hplaces, if_true, Int.toNat_natCast]

private theorem positional_trimmed (hpos : 0 < d.significand) (h : d.exponent = exponent) :
    d.trimmed.positional = Nat.toDigits 10 (d.significand * 10 ^ exponent) ++ ['.', '0'] := by
  fun_induction trimmed d generalizing exponent with
  | case1 d hzero ih =>
    have htens : d.significand / 10 * 10 = d.significand :=
      Nat.div_mul_cancel (Nat.dvd_of_mod_eq_zero hzero.2)
    have hrest : 0 < d.significand / 10 := by omega
    have hnext : d.exponent + 1 = (exponent + 1 : Nat) := by omega
    have hvalue : d.significand / 10 * 10 ^ (exponent + 1) = d.significand * 10 ^ exponent := by
      rw [pow_succ', ← Nat.mul_assoc, htens]
    rw [ih hrest hnext, hvalue]
  | case2 d =>
    obtain ⟨significand, _⟩ := d
    subst h
    exact positional_natCast hpos exponent

end Decimal

namespace Binary64
variable {x : Binary64} {n v : Nat}

private theorem RoundsTo.toRat_eq_natCast (hn : n < 2 ^ 53) (h : RoundsTo (n : ℚ) x) :
    x.toRat = n := by
  have hexact : RoundsTo (n * 2 ^ 0 : ℕ) x := by rwa [pow_zero, Nat.mul_one]
  rw [(hexact.toRat_eq_of_bits hn (by decide)).2, pow_zero, Nat.mul_one]

private theorem unitsPerOne_eq : unitsPerOne = 2 ^ 1074 := by
  rw [← Nat.cast_inj (R := ℚ), unitsPerOne_cast, Nat.cast_pow, Nat.cast_ofNat]

private theorem toRat_eq_natCast_iff (hsign : x.isNegative = false) :
    x.toRat = v ↔ x.units = v * unitsPerOne := by
  rw [toRat_of_nonneg hsign, div_eq_iff unitsPerOne_cast_pos.ne', ← Nat.cast_mul, Nat.cast_inj]

private theorem RoundsTo.exists_toRat_eq (h : RoundsTo (n : ℚ) x) : ∃ v : ℕ, x.toRat = v := by
  by_cases hn : n < 2 ^ 53
  · exact ⟨n, h.toRat_eq_natCast hn⟩
  · have hmultiple := x.exists_multiple_or_lt 1074
    rw [← unitsPerOne_eq] at hmultiple
    rcases hmultiple with ⟨v, hv⟩ | ⟨-, hlt⟩
    · exact ⟨v, (toRat_eq_natCast_iff h.isNegative_eq).mpr hv⟩
    · -- A magnitude so small is not what the number is rounded to.
      obtain ⟨y, hsign, hfinite, hy⟩ :=
        Binary64.exists_toRat_eq (by decide : 1 < 2 ^ 53) (by decide : 52 ≤ 971)
      rw [Nat.one_mul] at hy
      rw [← (toRat_eq_natCast_iff hsign).mp hy] at hlt
      have hround := roundsTo_toRat hsign hfinite
      rw [hy] at hround
      have hle : ((2 ^ 52 : ℕ) : ℚ) ≤ n := Nat.cast_le.mpr (by omega)
      exact absurd (units_lt_units_iff.mp hlt) (Nat.not_lt.mpr (hround.magnitude_le hle h))

private theorem leadingExponent_mul (hv : 0 < v) {denominator : Nat} (hpos : 0 < denominator) :
    leadingExponent (v * denominator) denominator = (Nat.toDigits 10 v).length - 1 := by
  rw [leadingExponent, if_pos (Nat.le_mul_of_pos_left _ hv), Nat.mul_div_cancel _ hpos]

private theorem choose?_of_below {isFit : Decimal → Bool} {belowIsNearer : Bool}
    {below above : Decimal}
    (hfit : isFit below = true) (hnearer : belowIsNearer = true) :
    choose? isFit belowIsNearer below above = some below := by
  rw [choose?, hfit, if_pos hnearer]
  cases isFit above <;> rfl

private theorem withDigits?_of_units (hfinite : x.magnitude < infinityBits)
    (hunits : x.units = v * unitsPerOne) (hv : 0 < v) :
    x.withDigits? (Nat.toDigits 10 v).length = some ⟨v, 0⟩ := by
  have hvalue : (Decimal.toBinary64 ⟨v, (0 : Nat)⟩).magnitude = x.magnitude := by
    have hself := nearestToRatio_units hfinite
    have hscale := nearestToRatio_mul_right v 1 unitsPerOne_pos
    have hone : v * Nat.pow 10 0 = v := Nat.mul_one v
    rw [hunits] at hself
    rw [Nat.one_mul, hself] at hscale
    rw [Decimal.toBinary64_natCast, hone, ← hscale, magnitude_ofMagnitude x.magnitude_lt]
  have hread : (fun d : Decimal => d.toBinary64.magnitude == x.magnitude) ⟨v, 0⟩ = true :=
    beq_iff_eq.mpr hvalue
  have hlead := leadingExponent_mul hv unitsPerOne_pos
  have hpos := unitsPerOne_pos
  rw [withDigits?_eq]
  beta_reduce
  rw [hunits]
  -- How many units are in one and what reads back do not matter, and are not to be computed.
  clear hunits hvalue
  generalize unitsPerOne = unit at hlead hpos ⊢
  generalize (fun d : Decimal => d.toBinary64.magnitude == x.magnitude) = readsBack at hread ⊢
  have hstep : leadingExponent (v * unit) unit + 1 - (Nat.toDigits 10 v).length = 0 := by omega
  have hten : Nat.pow 10 0 = 1 := rfl
  simp only [hstep, Int.neg_zero, Int.toNat_zero, hten, Nat.mul_one, Nat.mul_div_cancel _ hpos,
    Nat.mul_mod_left]
  exact choose?_of_below hread (by simpa using hpos)

private theorem value_eq_of_readsBack (hsign : x.isNegative = false) (hx : x.toRat = v)
    (hv : v < 10 ^ 16) {d : Decimal} {exponent : Nat}
    (hexponent : d.exponent = (exponent + 1 : Nat))
    (hread : d.toBinary64.magnitude = x.magnitude) :
    d.significand * 10 ^ (exponent + 1) = v := by
  obtain ⟨significand, _⟩ := d
  subst hexponent
  rw [Decimal.toBinary64_natCast] at hread
  have hround := roundsTo_natCast (significand * Nat.pow 10 (exponent + 1))
  rw [hround.eq_of_magnitude hsign hread, Nat.pow_eq] at hround
  have hlt : significand * 10 ^ (exponent + 1) < 10 ^ 16 := by
    have hbelow := (lt_positionalBelow_iff hsign).mpr (by rw [hx]; exact_mod_cast hv)
    by_contra hle
    have hcast : (10 ^ 16 : ℚ) ≤ (significand * 10 ^ (exponent + 1) : ℕ) := by
      exact_mod_cast Nat.not_lt.mp hle
    exact absurd (roundsTo_positionalBelow.magnitude_le hcast hround) (Nat.not_le.mpr hbelow)
  -- It is even, so that a bit less than it has will do.
  have heven : significand * 10 ^ (exponent + 1) = significand * 10 ^ exponent * 5 * 2 ^ 1 := by
    ring
  rw [heven] at hround hlt ⊢
  have hexact := (hround.toRat_eq_of_bits (by omega) (by decide)).2
  rw [hx, Nat.cast_inj] at hexact
  exact hexact.symm

private theorem exists_fewestDigits (hnonzero : ¬x.isZero = true) {length : Nat} (hpos : 0 < length)
    (hle : length ≤ 17) (hfound : (x.withDigits? length).isSome = true) :
    ∃ digits ≤ length, ∃ d, x.withDigits? digits = some d ∧ x.fewestDigits = d.trimmed := by
  have hsplit : List.range' 1 17 =
      List.range' 1 length ++ List.range' (1 + length) (17 - length) := by
    have hjoin := @List.range'_append 1 length (17 - length) 1
    rw [Nat.one_mul, Nat.add_sub_cancel' hle] at hjoin
    exact hjoin.symm
  have hsome : ((List.range' 1 length).findSome? x.withDigits?).isSome = true :=
    List.findSome?_isSome_iff.mpr ⟨length, List.mem_range'_1.mpr (by omega), hfound⟩
  obtain ⟨d, hd⟩ := Option.isSome_iff_exists.mp hsome
  obtain ⟨digits, hmem, hdigits⟩ := List.exists_of_findSome?_eq_some hd
  have hbound := List.mem_range'_1.mp hmem
  refine ⟨digits, by omega, d, hdigits, ?_⟩
  rw [fewestDigits, if_neg hnonzero, hsplit, List.findSome?_append, hd, Option.some_or,
    Option.getD_some]

/-- The decimal of the fewest digits is the whole number itself. -/
theorem exists_fewestDigits_eq (hsign : x.isNegative = false) (hfinite : x.magnitude < infinityBits)
    (hx : x.toRat = v) (hpos : 0 < v) (hv : v < 10 ^ 16) :
    ∃ d exponent, x.fewestDigits = Decimal.trimmed d ∧ d.exponent = (exponent : Nat) ∧
      d.significand * 10 ^ exponent = v := by
  have hunits := (toRat_eq_natCast_iff hsign).mp hx
  have hwhole := withDigits?_of_units hfinite hunits hpos
  have hlead := leadingExponent_mul hpos unitsPerOne_pos
  have hshort : (Nat.toDigits 10 v).length ≤ 16 :=
    (Nat.length_toDigits_le_iff (by decide) (by decide)).mpr hv
  have hlength : 0 < (Nat.toDigits 10 v).length := Nat.length_toDigits_pos
  have hnonzero : ¬x.isZero = true := by
    rw [isZero_iff hsign, hx, Nat.cast_eq_zero]
    exact hpos.ne'
  rw [← hunits] at hlead
  clear hunits
  generalize (Nat.toDigits 10 v).length = length at hwhole hlead hshort hlength
  obtain ⟨digits, hle, d, hfound, hfewest⟩ :=
    exists_fewestDigits hnonzero hlength (by omega) (by rw [hwhole]; rfl)
  obtain ⟨hexponent, hread⟩ := withDigits?_spec hfound
  rcases Nat.lt_or_eq_of_le hle with hlt | rfl
  · obtain ⟨exponent, rfl⟩ := Nat.exists_eq_add_of_lt hlt
    have hplaces : d.exponent = (exponent + 1 : Nat) := by omega
    exact ⟨d, exponent + 1, hfewest, hplaces, value_eq_of_readsBack hsign hx hv hplaces hread⟩
  · obtain rfl := Option.some.inj (hfound.symm.trans hwhole)
    exact ⟨_, 0, hfewest, rfl, Nat.mul_one v⟩

private theorem positional_fewestDigits (hsign : x.isNegative = false)
    (hfinite : x.magnitude < infinityBits) (hx : x.toRat = v) (hv : v < 10 ^ 16) :
    x.fewestDigits.positional = Nat.toDigits 10 v ++ ['.', '0'] := by
  rcases Nat.eq_zero_or_pos v with rfl | hpos
  · rw [fewestDigits, if_pos ((isZero_iff hsign).mpr (hx.trans Nat.cast_zero))]
    rfl
  · obtain ⟨d, exponent, hfewest, hexponent, rfl⟩ :=
      exists_fewestDigits_eq hsign hfinite hx hpos hv
    rw [hfewest, Decimal.positional_trimmed (Nat.pos_of_mul_pos_right hpos) hexponent]

private theorem RoundsTo.lt_positionalBelow_iff (h : RoundsTo (n : ℚ) x) :
    x.magnitude < Literal.numberStyle.positionalBelow.magnitude ↔ n < 10 ^ 16 - 1 := by
  constructor
  · intro hlt
    by_contra hle
    have hlimit : nearestToRatio (10 ^ 16 - 1) 1 = Literal.numberStyle.positionalBelow := by
      decide +kernel
    have hend :=
      (roundsTo_natCast (10 ^ 16 - 1)).magnitude_le (Nat.cast_le.mpr (Nat.not_lt.mp hle)) h
    rw [hlimit] at hend
    exact absurd hlt (Nat.not_lt.mpr hend)
  · intro hlt
    have heven : 10 ^ 16 - 2 = 4999999999999999 * 2 ^ 1 := by decide
    have hlast := roundsTo_natCast (10 ^ 16 - 2)
    have hend := h.magnitude_le (Nat.cast_le.mpr (by omega)) hlast
    refine hend.trans_lt ((Binary64.lt_positionalBelow_iff hlast.isNegative_eq).mpr ?_)
    rw [heven] at hlast ⊢
    rw [(hlast.toRat_eq_of_bits (by decide) (by decide)).2]
    norm_num

/-- Whole numbers are all in reach of the style from below. -/
theorem RoundsTo.isPositional_iff (h : RoundsTo (n : ℚ) x) :
    x.isPositional Literal.numberStyle = true ↔ n < 10 ^ 16 - 1 := by
  have hsign := h.isNegative_eq
  have hbelow := h.lt_positionalBelow_iff
  rw [isPositional_eq_true_iff, hbelow, isZero_iff hsign]
  refine ⟨fun hx => hx.elim (fun hzero => ?_) And.right, fun hn => ?_⟩
  · rw [← hbelow, Binary64.lt_positionalBelow_iff hsign, hzero]
    norm_num
  · rcases Nat.eq_zero_or_pos n with rfl | hpos
    · exact Or.inl ((h.toRat_eq_natCast (by decide)).trans Nat.cast_zero)
    · have hone : (1 : ℚ) ≤ n := Nat.one_le_cast.mpr hpos
      exact Or.inr ⟨roundsTo_positionalFrom.magnitude_le (by linarith) h, hn⟩

/-- Up to the limit a whole number is written in full, as the double that it is rounded to. -/
theorem RoundsTo.write_whole (h : RoundsTo (n : ℚ) x) (hn : n < 10 ^ 16 - 1) :
    ∃ v : ℕ, x.toRat = v ∧ (n < 2 ^ 53 → v = n) ∧
      x.write Literal.numberStyle = Nat.toDigits 10 v ++ ['.', '0'] := by
  have hsign := h.isNegative_eq
  have hpositional := h.isPositional_iff.mpr hn
  obtain ⟨v, hv⟩ := h.exists_toRat_eq
  have hlt : v < 10 ^ 16 := by
    have hlimit := (Binary64.lt_positionalBelow_iff hsign).mp (h.lt_positionalBelow_iff.mpr hn)
    rw [hv] at hlimit
    exact_mod_cast hlimit
  refine ⟨v, hv, fun hexact => ?_, ?_⟩
  · rwa [h.toRat_eq_natCast hexact, Nat.cast_inj, eq_comm] at hv
  · rw [write_positional hsign h.isNaN_eq hpositional,
      positional_fewestDigits hsign (finite_of_isPositional hpositional) hv hlt]

private theorem RoundsTo.write_scientific (h : RoundsTo (n : ℚ) x) (hn : 10 ^ 16 - 1 ≤ n)
    (hfinite : (n : ℚ) < overflowBound) :
    x.write Literal.numberStyle = x.fewestDigits.scientific 'e' := by
  have hpositional := mt h.isPositional_iff.mp (Nat.not_lt.mpr hn)
  have hinfinite := mt h.isInfinite_iff.mp (not_le.mpr hfinite)
  rw [write_of_nonneg h.isNegative_eq h.isNaN_eq, if_neg hinfinite, if_neg hpositional]

private theorem RoundsTo.write_infinite {q : ℚ} (h : RoundsTo q x) (hq : overflowBound ≤ q) :
    x.write Literal.numberStyle = ['i', 'n', 'f'] := by
  rw [write_of_nonneg h.isNegative_eq h.isNaN_eq, if_pos (h.isInfinite_iff.mpr hq)]

private theorem RoundsTo.write_eq_append_iff (h : RoundsTo (n : ℚ) x) :
    (∃ digits, Digits digits ∧ x.write Literal.numberStyle = digits ++ ['.', '0']) ↔
      n < 10 ^ 16 - 1 := by
  constructor
  · rintro ⟨digits, hdigits, htext⟩
    have hpart (c : Char) (hc : c ∈ x.write Literal.numberStyle) : c.isDigit = true ∨ c = '.' := by
      rw [htext, List.mem_append] at hc
      rcases hc with hc | hc
      · exact Or.inl (hdigits.2 c hc)
      · rcases List.mem_pair.mp hc with rfl | rfl
        · exact Or.inr rfl
        · exact Or.inl rfl
    by_contra hn
    rcases lt_or_ge (n : ℚ) overflowBound with hfinite | hinfinite
    · have hmark : 'e' ∈ x.write Literal.numberStyle := by
        rw [h.write_scientific (Nat.not_lt.mp hn) hfinite, Decimal.scientific_eq]
        exact List.mem_append_right _ List.mem_cons_self
      exact absurd (hpart 'e' hmark) (by decide)
    · have hletter : 'i' ∈ x.write Literal.numberStyle := by
        rw [h.write_infinite hinfinite]
        exact List.mem_cons_self
      exact absurd (hpart 'i' hletter) (by decide)
  · intro hn
    obtain ⟨v, -, -, htext⟩ := h.write_whole hn
    exact ⟨_, digits_toDigits v, htext⟩

end Binary64

/-- A number token without a point has its number as the last field of its terse form. Up to a limit
this is the whole number that the literal stands for, with a zero behind the point. From there on
it has an exponent, and what is too great for a double is not written in digits at all. -/
theorem whole_numbers_written :
    ∀ source, ∀ t ∈ (scan source).tokens, t.kind = .number → '.' ∉ t.lexeme.toList →
      let n := Nat.ofDigitChars 10 t.lexeme.toList 0
      ∃ x, t.literal = some (.number x) ∧
        t.canonical = "NUMBER " ++ t.lexeme ++ " " ++ (Literal.number x).write ∧
        ((∃ digits, Digits digits ∧ (Literal.number x).write.toList = digits ++ ['.', '0']) ↔
          n < 10 ^ 16 - 1) ∧
        (n < 10 ^ 16 - 1 → ∃ v : ℕ, x.toRat = v ∧ (n < 2 ^ 53 → v = n) ∧
          (Literal.number x).write.toList = Nat.toDigits 10 v ++ ['.', '0']) ∧
        (10 ^ 16 - 1 ≤ n → (n : ℚ) < Binary64.overflowBound →
          (Literal.number x).write.toList = x.fewestDigits.scientific 'e') ∧
        (Binary64.overflowBound ≤ n → (Literal.number x).write = "inf") := by
  intro source t ht hkind hpoint n
  obtain ⟨q, x, hcarries⟩ := Token.exists_carries ht hkind
  have hround : Binary64.RoundsTo n x := by
    have h := hcarries.roundsTo
    rwa [hcarries.numeral.eq_natCast hpoint] at h
  have hcanonical : t.canonical = "NUMBER " ++ t.lexeme ++ " " ++ (Literal.number x).write := by
    rw [Token.canonical, hkind, hcarries.literal]
    rfl
  refine ⟨x, hcarries.literal, hcanonical, ?_⟩
  rw [Literal.toList_write_number]
  refine ⟨hround.write_eq_append_iff, hround.write_whole, hround.write_scientific, fun hq => ?_⟩
  rw [Literal.write, hround.write_infinite hq]

/-- Above two to the fifty-third an odd number is written as its even neighbour. -/
theorem whole_numbers_written_odd :
    let source := "9007199254740993"
    let x : Binary64 := ⟨0x4340000000000000⟩
    let t : Token := ⟨.number, source, some (.number x), 1⟩
    t ∈ (scan source).tokens ∧ t.kind = .number ∧ '.' ∉ t.lexeme.toList ∧
      t.canonical = "NUMBER 9007199254740993 9007199254740992.0" ∧
      ∃ v : ℕ, x.toRat = v ∧
        (Literal.number x).write.toList = Nat.toDigits 10 v ++ ['.', '0'] := by
  intro source x t
  obtain ⟨htokens, htext, hbelow⟩ :
      (scan source).tokens = [t, ⟨.endOfInput, "", none, 1⟩] ∧
        (Literal.number x).write = "9007199254740992.0" ∧
        Nat.ofDigitChars 10 t.lexeme.toList 0 < 10 ^ 16 - 1 := by decide +kernel
  have ht : t ∈ (scan source).tokens := by
    rw [htokens]
    exact List.mem_cons_self
  have hpoint : '.' ∉ t.lexeme.toList := by decide
  obtain ⟨y, hy, hcanonical, -, hwhole, -⟩ := whole_numbers_written source t ht rfl hpoint
  cases hy
  obtain ⟨v, hv, -, hdigits⟩ := hwhole hbelow
  rw [htext] at hcanonical
  exact ⟨ht, rfl, hpoint, hcanonical, v, hv, hdigits⟩

/-- Ten to the sixteenth is written without a fraction. -/
theorem whole_number_without_fraction :
    let source := "10000000000000000"
    let x : Binary64 := ⟨0x4341c37937e08000⟩
    let t : Token := ⟨.number, source, some (.number x), 1⟩
    t ∈ (scan source).tokens ∧ '.' ∉ t.lexeme.toList ∧
      t.canonical = "NUMBER 10000000000000000 1e16" ∧
      ¬∃ digits, Digits digits ∧ (Literal.number x).write.toList = digits ++ ['.', '0'] := by
  intro source x t
  obtain ⟨htokens, hcanonical, htext⟩ :
      (scan source).tokens = [t, ⟨.endOfInput, "", none, 1⟩] ∧
        t.canonical = "NUMBER 10000000000000000 1e16" ∧
        (Literal.number x).write = "1e16" := by decide +kernel
  refine ⟨by rw [htokens]; exact List.mem_cons_self, by decide, hcanonical, ?_⟩
  rintro ⟨digits, -, hdigits⟩
  rw [htext] at hdigits
  have hlast := congrArg List.getLast? hdigits
  rw [List.getLast?_append_of_ne_nil _ (List.cons_ne_nil _ _)] at hlast
  exact absurd hlast (by decide)

end LoxLexis
