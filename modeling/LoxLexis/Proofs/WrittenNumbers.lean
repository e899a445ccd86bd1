import LoxLexis.Proofs.MaximalMunch
import LoxLexis.Proofs.QuotedText
import LoxLexis.Proofs.ReadBackDecimals

/-! The texts of doubles tell all doubles apart but the NaNs. -/
namespace LoxLexis

theorem digits_toDigits (n : Nat) : Digits (Nat.toDigits 10 n) := by
  rw [← Nat.toList_repr]
  exact digits_repr n

private theorem toDigits_inj {m n : Nat} (h : Nat.toDigits 10 m = Nat.toDigits 10 n) : m = n := by
  have hread := congrArg (fun digits => Nat.ofDigitChars 10 digits 0) h
  rwa [Nat.ofDigitChars_ten_toDigits, Nat.ofDigitChars_ten_toDigits] at hread

private theorem isDigit_of_mem_replicate {n : Nat} {c : Char} (h : c ∈ List.replicate n '0') :
    c.isDigit = true := by
  rw [List.eq_of_mem_replicate h]
  rfl

namespace Decimal
variable {d e : Decimal}

/-- A numeral with a point that is read as a decimal. -/
def IsNumeral (d : Decimal) (text : List Char) : Prop :=
  ∃ whole fraction, Digits whole ∧ Digits fraction ∧ text = whole ++ '.' :: fraction ∧
    Binary64.nearestToRatio (Nat.ofDigitChars 10 (whole ++ fraction) 0)
      (10 ^ fraction.length) = d.toBinary64

section
variable {significand places : Nat}

private theorem isNumeral_natCast (significand n : Nat) :
    IsNumeral ⟨significand, n⟩
      (Nat.toDigits 10 significand ++ List.replicate n '0' ++ ['.', '0']) := by
  have hzero (m : Nat) : Nat.ofDigitChars 10 ['0'] m = m * 10 := by
    rw [Nat.ofDigitChars_cons, Nat.ofDigitChars_nil, Nat.mul_comm]
    rfl
  refine ⟨Nat.toDigits 10 significand ++ List.replicate n '0', ['0'],
    (digits_toDigits significand).append fun c => isDigit_of_mem_replicate, ⟨by simp, by simp⟩, rfl,
    ?_⟩
  rw [toBinary64_natCast, Nat.ofDigitChars_append, Nat.ofDigitChars_append,
    Nat.ofDigitChars_ten_toDigits, Nat.ofDigitChars_replicate_zero, hzero, Nat.mul_comm (10 ^ n)]
  exact Binary64.nearestToRatio_mul_right _ 1 (by decide)

private theorem isNumeral_within (hpos : 0 < places)
    (hwithin : places < (Nat.toDigits 10 significand).length) :
    IsNumeral ⟨significand, -places⟩
      ((Nat.toDigits 10 significand).take ((Nat.toDigits 10 significand).length - places) ++
        '.' :: (Nat.toDigits 10 significand).drop
          ((Nat.toDigits 10 significand).length - places)) := by
  have hdigits := digits_toDigits significand
  refine ⟨_, _, ⟨?_, fun c hc => hdigits.2 c (List.mem_of_mem_take hc)⟩,
    ⟨?_, fun c hc => hdigits.2 c (List.mem_of_mem_drop hc)⟩, rfl, ?_⟩
  · rw [Ne, List.take_eq_nil_iff, not_or]
    exact ⟨by omega, hdigits.1⟩
  · rw [Ne, List.drop_eq_nil_iff]
    omega
  · rw [List.take_append_drop, Nat.ofDigitChars_ten_toDigits, List.length_drop,
      Nat.sub_sub_self (Nat.le_of_lt hwithin), toBinary64_neg_natCast]
    rfl

private theorem isNumeral_beyond (hbeyond : (Nat.toDigits 10 significand).length ≤ places) :
    IsNumeral ⟨significand, -places⟩
      ('0' :: '.' :: List.replicate (places - (Nat.toDigits 10 significand).length) '0' ++
        Nat.toDigits 10 significand) := by
  have hdigits := digits_toDigits significand
  have hlength := Nat.sub_add_cancel hbeyond
  generalize places - (Nat.toDigits 10 significand).length = zeros at hlength
  have hnone : Nat.ofDigitChars 10 (['0'] ++ List.replicate zeros '0') 0 = 0 :=
    Nat.ofDigitChars_replicate_zero (n := zeros + 1)
  refine ⟨['0'], List.replicate zeros '0' ++ Nat.toDigits 10 significand, ⟨by simp, by simp⟩,
    ⟨List.append_ne_nil_of_right_ne_nil _ hdigits.1, fun c hc => ?_⟩, rfl, ?_⟩
  · exact (List.mem_append.mp hc).elim isDigit_of_mem_replicate (hdigits.2 c)
  · rw [← List.append_assoc, Nat.ofDigitChars_append, hnone, Nat.ofDigitChars_ten_toDigits,
      List.length_append, List.length_replicate, hlength, toBinary64_neg_natCast]
    rfl

end

/-- Positional notation is a numeral with a point that is read as the decimal. -/
theorem isNumeral_positional (d : Decimal) : IsNumeral d d.positional := by
  obtain ⟨significand, exponent⟩ := d
  cases exponent with
  | ofNat n =>
    have hplaces : (-(Int.ofNat n)).toNat = 0 := by simp
    simp only [positional, hplaces, if_true]
    exact isNumeral_natCast significand n
  | negSucc n =>
    have hplaces : (-(Int.negSucc n)).toNat = n + 1 := rfl
    simp only [positional, hplaces, if_neg (Nat.succ_ne_zero n)]
    split
    case isTrue hwithin => exact isNumeral_within (Nat.succ_pos n) hwithin
    case isFalse hbeyond => exact isNumeral_beyond (Nat.not_lt.mp hbeyond)

/-- Reading a decimal back from its positional notation. -/
theorem numeralValue_positional (d : Decimal) :
    Lexeme.numeralValue d.positional = d.toBinary64 := by
  obtain ⟨whole, fraction, hwhole, -, htext, hvalue⟩ := d.isNumeral_positional
  rw [htext, Lexeme.numeralValue_decimal hwhole, hvalue]

/-- The digits of scientific notation with the point behind the first. -/
def mantissa (d : Decimal) : List Char :=
  (Nat.toDigits 10 d.significand).take 1 ++
    if ((Nat.toDigits 10 d.significand).drop 1).isEmpty then []
    else '.' :: (Nat.toDigits 10 d.significand).drop 1

def power (d : Decimal) : Int :=
  d.exponent + ((Nat.toDigits 10 d.significand).drop 1).length

def signed (n : Int) : List Char := (if n < 0 then ['-'] else []) ++ Nat.toDigits 10 n.natAbs

theorem scientific_eq (mark : Char) (d : Decimal) :
    d.scientific mark = d.mantissa ++ mark :: signed d.power := by
  simp only [scientific, mantissa, power, signed, List.append_assoc, List.cons_append,
    List.nil_append]
  rfl

private theorem filter_mantissa (d : Decimal) :
    d.mantissa.filter Char.isDigit = Nat.toDigits 10 d.significand := by
  have hpoint : Char.isDigit '.' = false := rfl
  have hall : (Nat.toDigits 10 d.significand).filter Char.isDigit = Nat.toDigits 10 d.significand :=
    List.filter_eq_self.mpr (digits_toDigits d.significand).2
  have hfraction : (if ((Nat.toDigits 10 d.significand).drop 1).isEmpty then []
      else '.' :: (Nat.toDigits 10 d.significand).drop 1).filter Char.isDigit =
        ((Nat.toDigits 10 d.significand).drop 1).filter Char.isDigit := by
    split
    case isTrue hempty => rw [List.isEmpty_iff.mp hempty]
    case isFalse => rw [List.filter_cons_of_neg (by rw [hpoint]; exact Bool.false_ne_true)]
  rw [mantissa, List.filter_append, hfraction, ← List.filter_append, List.take_append_drop, hall]

private theorem mantissa_part {d : Decimal} {c : Char} (h : c ∈ d.mantissa) :
    (c.isDigit || c == '.') = true := by
  by_cases hpoint : c = '.'
  · rw [hpoint]
    rfl
  · have hmem : c ∈ Nat.toDigits 10 d.significand := by
      rw [mantissa, List.mem_append] at h
      rcases h with h | h
      · exact List.mem_of_mem_take h
      · split at h
        · cases h
        · exact List.mem_of_mem_drop ((List.mem_cons.mp h).resolve_left hpoint)
    rw [(digits_toDigits d.significand).2 c hmem, Bool.true_or]

private theorem signed_part {n : Int} {c : Char} (h : c ∈ signed n) :
    (c.isDigit || c == '-') = true := by
  rw [signed, List.mem_append] at h
  rcases h with h | h
  · split at h
    · rw [List.mem_singleton.mp h]
      rfl
    · cases h
  · rw [(digits_toDigits n.natAbs).2 c h, Bool.true_or]

private theorem natAbs_of_signed (n : Int) :
    (signed n).filter Char.isDigit = Nat.toDigits 10 n.natAbs := by
  have hall : (Nat.toDigits 10 n.natAbs).filter Char.isDigit = Nat.toDigits 10 n.natAbs :=
    List.filter_eq_self.mpr (digits_toDigits n.natAbs).2
  have hsign : (if n < 0 then ['-'] else []).filter Char.isDigit = [] := by
    split <;> rfl
  rw [signed, List.filter_append, hsign, hall, List.nil_append]

private theorem lt_zero_iff_mem_signed (n : Int) : n < 0 ↔ '-' ∈ signed n := by
  have hdigits : '-' ∉ Nat.toDigits 10 n.natAbs := fun h =>
    absurd ((digits_toDigits n.natAbs).2 _ h) (by decide)
  by_cases hn : n < 0 <;> simp [signed, hn, hdigits]

private theorem signed_inj {m n : Int} (h : signed m = signed n) : m = n := by
  have habs := congrArg (List.filter Char.isDigit) h
  rw [natAbs_of_signed, natAbs_of_signed] at habs
  have hnatAbs := toDigits_inj habs
  have hsign : m < 0 ↔ n < 0 := by rw [lt_zero_iff_mem_signed, h, lt_zero_iff_mem_signed]
  omega

/-- In scientific notation every decimal is written in its own way. -/
theorem scientific_inj {mark : Char} (hmark : (mark.isDigit || mark == '.') = false)
    (h : d.scientific mark = e.scientific mark) : d = e := by
  rw [scientific_eq, scientific_eq] at h
  obtain ⟨hmantissa, hpower⟩ :=
    append_cons_inj (fun _ => mantissa_part) (fun _ => mantissa_part) hmark h
  have hdigits := congrArg (List.filter Char.isDigit) hmantissa
  rw [filter_mantissa, filter_mantissa] at hdigits
  have hexponent := signed_inj hpower
  rw [power, power, hdigits, Int.add_left_inj] at hexponent
  obtain ⟨significand, exponent⟩ := d
  obtain ⟨significand', exponent'⟩ := e
  obtain rfl : significand = significand' := toDigits_inj hdigits
  obtain rfl : exponent = exponent' := hexponent
  rfl

private theorem positional_part {c : Char} (h : c ∈ d.positional) :
    (c.isDigit || c == '.') = true := by
  obtain ⟨whole, fraction, hwhole, hfraction, htext, -⟩ := d.isNumeral_positional
  rw [htext] at h
  rcases List.mem_append.mp h with h | h
  · rw [hwhole.2 c h, Bool.true_or]
  · rcases List.mem_cons.mp h with rfl | h
    · rfl
    · rw [hfraction.2 c h, Bool.true_or]

private theorem scientific_part {mark c : Char} (h : c ∈ d.scientific mark) :
    (c.isDigit || c == '.') = true ∨ c = mark ∨ (c.isDigit || c == '-') = true := by
  rw [scientific_eq, List.mem_append, List.mem_cons] at h
  exact h.imp mantissa_part (Or.imp_right signed_part)

end Decimal

namespace Binary64
variable {x y : Binary64} {s t : List Char}

/-- The ways in which a magnitude is written. -/
inductive MagnitudeText (x : Binary64) : List Char → Prop where
  | infinite : x.magnitude = infinityBits → MagnitudeText x ['i', 'n', 'f']
  | positional : x.magnitude < infinityBits → MagnitudeText x x.fewestDigits.positional
  | scientific : x.magnitude < infinityBits → MagnitudeText x (x.fewestDigits.scientific 'e')

private theorem write_of_isNaN (h : x.isNaN = true) :
    x.write Literal.numberStyle = ['N', 'a', 'N'] := by
  rw [write, if_pos h]
  rfl

private theorem exists_magnitudeText (h : x.isNaN = false) :
    ∃ s, MagnitudeText x s ∧
      x.write Literal.numberStyle = (if x.isNegative then ['-'] else []) ++ s := by
  have hle : x.magnitude ≤ infinityBits := Nat.not_lt.mp (of_decide_eq_false h)
  rw [write, h]
  by_cases hinfinite : x.isInfinite = true
  · refine ⟨_, .infinite (beq_iff_eq.mp hinfinite), ?_⟩
    rw [if_pos hinfinite]
    rfl
  · have hlt : x.magnitude < infinityBits :=
      Nat.lt_of_le_of_ne hle fun he => hinfinite (beq_iff_eq.mpr he)
    rw [if_neg hinfinite]
    by_cases hpositional : x.isPositional Literal.numberStyle = true
    · refine ⟨_, .positional hlt, ?_⟩
      rw [if_pos hpositional]
      rfl
    · refine ⟨_, .scientific hlt, ?_⟩
      rw [if_neg hpositional]
      rfl

namespace MagnitudeText

private theorem part (h : MagnitudeText x s) {c : Char} (hc : c ∈ s) :
    (c.isAlphanum || c == '.' || c == '-') = true := by
  have hdigit {mark : Char} (hd : (c.isDigit || c == mark) = true) :
      c.isAlphanum = true ∨ c = mark := by
    rw [Bool.or_eq_true, beq_iff_eq] at hd
    exact hd.imp_left fun hd => by rw [Char.isAlphanum, hd, Bool.or_true]
  simp only [Bool.or_eq_true, beq_iff_eq]
  cases h with
  | infinite =>
    have hall : ['i', 'n', 'f'].all Char.isAlphanum = true := by decide
    exact Or.inl (Or.inl (List.all_eq_true.mp hall c hc))
  | positional => exact Or.inl (hdigit (Decimal.positional_part hc))
  | scientific =>
    rcases Decimal.scientific_part hc with hc | rfl | hc
    · exact Or.inl (hdigit hc)
    · exact Or.inl (Or.inl rfl)
    · exact (hdigit hc).imp_left Or.inl

private theorem head_part (h : MagnitudeText x s) :
    ∀ c ∈ s.head?, (c.isDigit || c == '.') = true ∨ c = 'i' := by
  intro c hc
  obtain ⟨rest, htext⟩ := List.head?_eq_some_iff.mp hc
  cases h with
  | infinite => exact Or.inr (List.cons.inj htext).1.symm
  | positional =>
    have hmem : c ∈ x.fewestDigits.positional := by rw [htext]; exact List.mem_cons_self
    exact Or.inl (Decimal.positional_part hmem)
  | scientific =>
    -- The mantissa has a digit at least, and it comes first.
    have hfilter := x.fewestDigits.filter_mantissa
    rw [Decimal.scientific_eq] at htext
    cases hmantissa : x.fewestDigits.mantissa with
    | nil =>
      rw [hmantissa] at hfilter
      exact absurd hfilter.symm Nat.toDigits_ne_nil
    | cons d digits =>
      rw [hmantissa] at htext
      have hmem : d ∈ x.fewestDigits.mantissa := by rw [hmantissa]; exact List.mem_cons_self
      rw [(List.cons.inj htext).1] at hmem
      exact Or.inl (Decimal.mantissa_part hmem)

/-- Two magnitudes that are written alike are the same. -/
theorem magnitude_eq (hx : MagnitudeText x s) (hy : MagnitudeText y t) (h : s = t) :
    x.magnitude = y.magnitude := by
  have hletter {d : Decimal} : 'i' ∉ d.positional ∧ 'i' ∉ d.scientific 'e' :=
    ⟨fun hm => absurd (Decimal.positional_part hm) (by decide),
      fun hm => absurd (Decimal.scientific_part hm) (by decide)⟩
  have hinfinite : 'i' ∈ ['i', 'n', 'f'] := List.mem_cons_self
  have hmark {d : Decimal} : 'e' ∉ d.positional := fun hm =>
    absurd (Decimal.positional_part hm) (by decide)
  have hscientific {d : Decimal} : 'e' ∈ d.scientific 'e' := by simp [Decimal.scientific_eq]
  cases hx with
  | infinite hx =>
    cases hy with
    | infinite hy => rw [hx, hy]
    | positional => exact absurd (h ▸ hinfinite) hletter.1
    | scientific => exact absurd (h ▸ hinfinite) hletter.2
  | positional hx =>
    cases hy with
    | infinite => exact absurd (h ▸ hinfinite) hletter.1
    | positional hy =>
      rw [← magnitude_fewestDigits hx, ← magnitude_fewestDigits hy,
        ← Decimal.numeralValue_positional, h, Decimal.numeralValue_positional]
    | scientific => exact absurd (h ▸ hscientific) hmark
  | scientific hx =>
    cases hy with
    | infinite => exact absurd (h ▸ hinfinite) hletter.2
    | positional => exact absurd (h ▸ hscientific) hmark
    | scientific hy =>
      rw [← magnitude_fewestDigits hx, ← magnitude_fewestDigits hy,
        Decimal.scientific_inj (by decide) h]

end MagnitudeText

theorem write_part {c : Char} (h : c ∈ x.write Literal.numberStyle) :
    (c.isAlphanum || c == '.' || c == '-') = true := by
  cases hnan : x.isNaN with
  | true =>
    have hall : ['N', 'a', 'N'].all Char.isAlphanum = true := by decide
    rw [write_of_isNaN hnan] at h
    rw [List.all_eq_true.mp hall c h]
    rfl
  | false =>
    obtain ⟨s, htext, hwrite⟩ := exists_magnitudeText hnan
    rw [hwrite, List.mem_append] at h
    rcases h with h | h
    · split at h
      · rw [List.mem_singleton.mp h]
        rfl
      · cases h
    · exact htext.part h

private theorem write_ne_of_isNaN (hx : x.isNaN = true) (hy : y.isNaN = false) :
    x.write Literal.numberStyle ≠ y.write Literal.numberStyle := by
  intro h
  obtain ⟨s, htext, hwrite⟩ := exists_magnitudeText hy
  rw [write_of_isNaN hx, hwrite] at h
  cases hsign : y.isNegative with
  | true =>
    rw [hsign] at h
    cases h
  | false =>
    rw [hsign] at h
    have hcapital : 'N' ∈ s.head? := congrArg List.head? h.symm
    exact absurd (htext.head_part 'N' hcapital) (by decide)

private theorem sign_append_inj {p q : Bool} (hs : s.head? ≠ some '-') (ht : t.head? ≠ some '-')
    (h : (if p then ['-'] else []) ++ s = (if q then ['-'] else []) ++ t) : p = q ∧ s = t := by
  cases p <;> cases q
  · exact ⟨rfl, h⟩
  · exact absurd (congrArg List.head? h) hs
  · exact absurd (congrArg List.head? h.symm) ht
  · exact ⟨rfl, (List.cons.inj h).2⟩

/-- Only NaNs are written alike. -/
theorem write_eq_iff : x.write Literal.numberStyle = y.write Literal.numberStyle ↔
    x = y ∨ (x.isNaN = true ∧ y.isNaN = true) := by
  constructor
  · intro h
    cases hx : x.isNaN with
    | true =>
      cases hy : y.isNaN with
      | true => exact Or.inr ⟨rfl, rfl⟩
      | false => exact absurd h (write_ne_of_isNaN hx hy)
    | false =>
      cases hy : y.isNaN with
      | true => exact absurd h.symm (write_ne_of_isNaN hy hx)
      | false =>
        obtain ⟨s, hs, hwrite⟩ := exists_magnitudeText hx
        obtain ⟨t, ht, hwrite'⟩ := exists_magnitudeText hy
        rw [hwrite, hwrite'] at h
        have hminus {z : Binary64} {u : List Char} (hu : MagnitudeText z u) : u.head? ≠ some '-' :=
          fun hhead => absurd (hu.head_part '-' hhead) (by decide)
        obtain ⟨hsign, htext⟩ := sign_append_inj (hminus hs) (hminus ht) h
        exact Or.inl (eq_of_magnitude_eq hsign (hs.magnitude_eq ht htext))
  · rintro (rfl | ⟨hx, hy⟩)
    · rfl
    · rw [write_of_isNaN hx, write_of_isNaN hy]

end Binary64
end LoxLexis
