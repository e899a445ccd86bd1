import LoxLexis.Proofs.NumberValues

/-! Numbers from a ten-thousandth up to ten to the sixteenth are written as numerals with a point,
and such a text is scanned as the number again. -/
namespace LoxLexis
namespace Binary64
variable {x y : Binary64}

theorem isPositional_eq_true_iff {style : DecimalStyle} : x.isPositional style = true ↔
    x.isZero = true ∨
      style.positionalFrom.magnitude ≤ x.magnitude ∧
        x.magnitude < style.positionalBelow.magnitude := by
  rw [isPositional, Bool.or_eq_true, Bool.and_eq_true, decide_eq_true_iff, decide_eq_true_iff]

theorem roundsTo_positionalFrom : RoundsTo (1 / 10000) Literal.numberStyle.positionalFrom := by
  have h := roundsTo_nearestToRatio 1 (by decide : 0 < 10000)
  rwa [Nat.cast_one, Nat.cast_ofNat] at h

private theorem positionalFrom_le_iff (hsign : x.isNegative = false)
    (hfinite : x.magnitude < infinityBits) :
    Literal.numberStyle.positionalFrom.magnitude ≤ x.magnitude ↔ 1 / 10000 ≤ x.toRat := by
  have hfrom := roundsTo_positionalFrom.isNegative_eq
  have habove : unitsPerOne ≤ Literal.numberStyle.positionalFrom.units * 10000 := by
    decide +kernel
  have hbound : (1 : ℚ) / 10000 ≤ Literal.numberStyle.positionalFrom.toRat := by
    rw [toRat_of_nonneg hfrom, div_le_div_iff₀ (by norm_num) unitsPerOne_cast_pos, one_mul]
    exact_mod_cast habove
  exact ⟨fun h => hbound.trans (toRat_le_toRat hfrom hsign h),
    fun h => roundsTo_positionalFrom.magnitude_le h (roundsTo_toRat hsign hfinite)⟩

theorem roundsTo_positionalBelow : RoundsTo (10 ^ 16) Literal.numberStyle.positionalBelow := by
  have hcast : ((Nat.pow 10 16 : ℕ) : ℚ) = 10 ^ 16 := Nat.cast_pow 10 16
  have hdefinition : Literal.numberStyle.positionalBelow = nearestToRatio (Nat.pow 10 16) 1 := rfl
  have h := roundsTo_natCast (Nat.pow 10 16)
  rwa [← hdefinition, hcast] at h

private theorem positionalBelow_exact :
    Literal.numberStyle.positionalBelow.magnitude < infinityBits ∧
    Literal.numberStyle.positionalBelow.toRat = 10 ^ 16 := by
  have hfactors : (10 ^ 16 : ℚ) = (5 ^ 16 * 2 ^ 16 : ℕ) := by norm_num
  have hround := roundsTo_positionalBelow
  rw [hfactors] at hround ⊢
  exact hround.toRat_eq_of_bits (by decide) (by decide)

theorem lt_positionalBelow_iff (hsign : x.isNegative = false) :
    x.magnitude < Literal.numberStyle.positionalBelow.magnitude ↔ x.toRat < 10 ^ 16 := by
  rw [← positionalBelow_exact.2, toRat_lt_toRat_iff hsign roundsTo_positionalBelow.isNegative_eq]

theorem isZero_iff (hsign : x.isNegative = false) : x.isZero = true ↔ x.toRat = 0 := by
  have hzero : (ofMagnitude 0).units = 0 := by decide
  rw [toRat_of_nonneg hsign, div_eq_zero_iff, or_iff_left unitsPerOne_cast_pos.ne',
    Nat.cast_eq_zero, isZero, beq_iff_eq, ← hzero, units_inj]
  rfl

/-- Zero, and what is from a ten-thousandth up to ten to the sixteenth. -/
def InPositionalRange (x : Binary64) : Prop :=
  x.value = 0 ∨ ((1 / 10000 : ℚ) : WithTop ℚ) ≤ x.value ∧ x.value < ((10 ^ 16 : ℚ) : WithTop ℚ)

theorem finite_of_isPositional (h : x.isPositional Literal.numberStyle = true) :
    x.magnitude < infinityBits := by
  have hlimit := positionalBelow_exact.1
  rw [isPositional_eq_true_iff, isZero, beq_iff_eq] at h
  omega

/-- The style writes those doubles positionally. -/
theorem isPositional_iff (hsign : x.isNegative = false) (hnan : x.isNaN = false) :
    x.isPositional Literal.numberStyle = true ↔ x.InPositionalRange := by
  have hle : x.magnitude ≤ infinityBits := Nat.not_lt.mp (of_decide_eq_false hnan)
  rcases hle.eq_or_lt with heq | hfinite
  · have hvalue : x.value = ⊤ := if_pos (beq_iff_eq.mpr heq)
    refine iff_of_false (fun h => (finite_of_isPositional h).ne heq) ?_
    rw [InPositionalRange, hvalue]
    exact not_or.mpr ⟨WithTop.top_ne_zero, fun h => not_top_lt h.2⟩
  · have hvalue : x.value = (x.toRat : ℚ) :=
      if_neg fun hinfinite => hfinite.ne (beq_iff_eq.mp hinfinite)
    rw [isPositional_eq_true_iff, isZero_iff hsign, positionalFrom_le_iff hsign hfinite,
      lt_positionalBelow_iff hsign, InPositionalRange, hvalue, WithTop.coe_eq_zero,
      WithTop.coe_le_coe, WithTop.coe_lt_coe]

theorem write_of_nonneg (hsign : x.isNegative = false) (hnan : x.isNaN = false) :
    x.write Literal.numberStyle =
      if x.isInfinite then ['i', 'n', 'f']
      else if x.isPositional Literal.numberStyle then x.fewestDigits.positional
      else x.fewestDigits.scientific 'e' := by
  rw [write, hnan, hsign]
  rfl

theorem write_positional (hsign : x.isNegative = false) (hnan : x.isNaN = false)
    (h : x.isPositional Literal.numberStyle = true) :
    x.write Literal.numberStyle = x.fewestDigits.positional := by
  have hinfinite : ¬x.isInfinite = true := fun hx =>
    (finite_of_isPositional h).ne (beq_iff_eq.mp hx)
  rw [write_of_nonneg hsign hnan, if_neg hinfinite, if_pos h]

/-- A double that is written positionally is written as a numeral with a point that denotes it. -/
theorem denotes_write (hsign : x.isNegative = false) (hnan : x.isNaN = false)
    (h : x.isPositional Literal.numberStyle = true) :
    ∃ whole fraction, Digits whole ∧ Digits fraction ∧
      x.write Literal.numberStyle = whole ++ '.' :: fraction ∧
      Denotes (x.write Literal.numberStyle) .number (some (.number x)) := by
  obtain ⟨whole, fraction, hw, hf, htext, hvalue⟩ := x.fewestDigits.isNumeral_positional
  have hsame : nearestToRatio (Nat.ofDigitChars 10 (whole ++ fraction) 0) (10 ^ fraction.length) =
      x := by
    have htens : 0 < 10 ^ fraction.length := by positivity
    refine (roundsTo_nearestToRatio _ htens).eq_of_magnitude hsign ?_
    rw [hvalue, magnitude_fewestDigits (finite_of_isPositional h)]
  rw [write_positional hsign hnan h, htext]
  refine ⟨whole, fraction, hw, hf, rfl, ?_⟩
  have hdenotes := Denotes.decimal hw hf
  rwa [hsame] at hdenotes

end Binary64

theorem Literal.toList_write_number (x : Binary64) :
    (number x).write.toList = x.write numberStyle :=
  String.toList_ofList

private theorem tokenize_of_denotes {text : String} {kind : Kind} {value : Option Literal}
    (h : Denotes text.toList kind value) :
    tokenize text = .ok [⟨kind, text, value, 1⟩, Token.atEnd text] := by
  have hscan : scan (String.ofList (printed [] [(⟨kind, text, value, 1⟩, [])])) = _ :=
    scan_ofList_printed blanks_nil (by simp [Token.WellFormed, h, blanks_nil]) (by simp)
  have htext : String.ofList (printed [] [((⟨kind, text, value, 1⟩ : Token), [])]) = text := by
    simp [printed]
  rw [htext] at hscan
  rw [tokenize, hscan]
  rfl

/-- A number token whose number is zero, or from a ten-thousandth up to ten to the sixteenth, has it
written as digits, a point and digits. By itself that text is scanned as one number token with the
same bits. -/
theorem tokenize_written_number :
    ∀ source, ∀ t ∈ (scan source).tokens, t.kind = .number →
      ∃ x, t.literal = some (.number x) ∧ (x.InPositionalRange →
        (∃ whole fraction, Digits whole ∧ Digits fraction ∧
          (Literal.number x).write.toList = whole ++ '.' :: fraction) ∧
        tokenize (Literal.number x).write =
          .ok [⟨.number, (Literal.number x).write, some (.number x), 1⟩,
            ⟨.endOfInput, "", none, 1⟩]) := by
  intro source t ht hkind
  obtain ⟨q, x, h⟩ := Token.exists_carries ht hkind
  have hround := h.roundsTo
  refine ⟨x, h.literal, fun hrange => ?_⟩
  have hpositional := (Binary64.isPositional_iff hround.isNegative_eq hround.isNaN_eq).mpr hrange
  obtain ⟨whole, fraction, hw, hf, htext, hdenotes⟩ :=
    Binary64.denotes_write hround.isNegative_eq hround.isNaN_eq hpositional
  rw [← Literal.toList_write_number] at htext hdenotes
  have hline : lineAfter (Literal.number x).write.toList = 1 := by
    have hnone : '\n' ∉ x.write Literal.numberStyle := fun hn =>
      absurd (Binary64.write_part hn) (by decide)
    rw [lineAfter, Literal.toList_write_number, List.count_eq_zero.mpr hnone]
  have htokens := tokenize_of_denotes hdenotes
  rw [Token.atEnd, hline] at htokens
  exact ⟨⟨whole, fraction, hw, hf, htext⟩, htokens⟩

/-- A tenth with too many digits is written with as few as will do. -/
theorem tokenize_written_number_tenth :
    let source := "0.1000000000000000055511151231257827"
    let tenth : Binary64 := ⟨0x3fb999999999999a⟩
    let t : Token := ⟨.number, source, some (.number tenth), 1⟩
    t ∈ (scan source).tokens ∧ t.kind = .number ∧ tenth.InPositionalRange ∧
      tokenize "0.1" =
        .ok [⟨.number, "0.1", some (.number tenth), 1⟩, ⟨.endOfInput, "", none, 1⟩] := by
  intro source tenth t
  obtain ⟨htokens, htext, hpositional⟩ :
      (scan source).tokens = [t, ⟨.endOfInput, "", none, 1⟩] ∧
        (Literal.number tenth).write = "0.1" ∧
        tenth.isPositional Literal.numberStyle = true := by decide +kernel
  have ht : t ∈ (scan source).tokens := by
    rw [htokens]
    exact List.mem_cons_self
  have hrange := (Binary64.isPositional_iff (by decide) (by decide)).mp hpositional
  obtain ⟨x, hx, hwritten⟩ := tokenize_written_number source t ht rfl
  cases hx
  rw [htext] at hwritten
  exact ⟨ht, rfl, hrange, (hwritten hrange).2⟩

end LoxLexis
