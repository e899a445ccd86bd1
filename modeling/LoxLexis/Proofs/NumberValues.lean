import LoxLexis.Proofs.CorrectRounding
import LoxLexis.Proofs.ShownTokens

/-! A number token carries the double nearest to what its lexeme stands for, whatever its length. -/
namespace LoxLexis

/-- The rational that a numeral stands for: its digits as a whole number, and a tenth for each of
them behind the point. -/
inductive Numeral : List Char → ℚ → Prop where
  | integer {whole : List Char} : Digits whole → Numeral whole (Nat.ofDigitChars 10 whole 0)
  | decimal {whole fraction : List Char} : Digits whole → Digits fraction →
      Numeral (whole ++ '.' :: fraction)
        (Nat.ofDigitChars 10 (whole ++ fraction) 0 / 10 ^ fraction.length)

namespace Numeral
variable {text : List Char} {q r : ℚ}

private theorem denotes (h : Numeral text q) :
    ∃ x, Denotes text .number (some (.number x)) ∧ Binary64.RoundsTo q x := by
  cases h with
  | integer hw => exact ⟨_, .integer hw, Binary64.roundsTo_natCast _⟩
  | @decimal whole fraction hw hf =>
    have htens : 0 < 10 ^ fraction.length := by positivity
    have hround :=
      Binary64.roundsTo_nearestToRatio (Nat.ofDigitChars 10 (whole ++ fraction) 0) htens
    rw [Nat.cast_pow, Nat.cast_ofNat] at hround
    exact ⟨_, .decimal hw hf, hround⟩

private theorem exists_of_denotes {v : Option Literal} (h : Denotes text .number v) :
    ∃ q, Numeral text q := by
  cases h with
  | integer hw => exact ⟨_, .integer hw⟩
  | decimal hw hf => exact ⟨_, .decimal hw hf⟩

private theorem cons_zero (h : Numeral text q) : Numeral ('0' :: text) q := by
  have hzero (digits : List Char) :
      Nat.ofDigitChars 10 ('0' :: digits) 0 = Nat.ofDigitChars 10 digits 0 := Nat.ofDigitChars_cons
  have hcons {digits : List Char} (hd : Digits digits) : Digits ('0' :: digits) :=
    ⟨List.cons_ne_nil _ _, List.forall_mem_cons.mpr ⟨rfl, hd.2⟩⟩
  cases h with
  | integer hw =>
    rw [← hzero]
    exact .integer (hcons hw)
  | @decimal whole fraction hw hf =>
    rw [← hzero, ← List.cons_append]
    exact .decimal (hcons hw) hf

private theorem ofDigitChars_concat_zero (digits : List Char) :
    (Nat.ofDigitChars 10 (digits ++ ['0']) 0 : ℚ) = Nat.ofDigitChars 10 digits 0 * 10 := by
  have hzero (m : Nat) : Nat.ofDigitChars 10 ['0'] m = m * 10 := by
    rw [Nat.ofDigitChars_cons, Nat.ofDigitChars_nil, Nat.mul_comm]
    rfl
  rw [Nat.ofDigitChars_append, hzero, Nat.cast_mul, Nat.cast_ofNat]

private theorem concat_zero (h : Numeral text q) (hpoint : '.' ∈ text) :
    Numeral (text ++ ['0']) q := by
  cases h with
  | integer hw => exact absurd hpoint hw.point_not_mem
  | @decimal whole fraction hw hf =>
    have hlonger : Digits (fraction ++ ['0']) := hf.append (by simp)
    have hnext := Numeral.decimal hw hlonger
    rw [← List.append_assoc, ofDigitChars_concat_zero, List.length_append, List.length_singleton,
      pow_succ, mul_div_mul_right _ _ (by norm_num)] at hnext
    rwa [List.append_assoc, List.cons_append]

private theorem append_point_zero (h : Numeral text q) (hpoint : '.' ∉ text) :
    Numeral (text ++ ['.', '0']) q := by
  cases h with
  | integer hw =>
    have hnext := Numeral.decimal hw (⟨by simp, by simp⟩ : Digits ['0'])
    rwa [ofDigitChars_concat_zero, List.length_singleton, pow_one,
      mul_div_cancel_right₀ _ (by norm_num)] at hnext
  | decimal =>
    exact absurd (List.mem_append_right _ List.mem_cons_self) hpoint

theorem eq_natCast (h : Numeral text q) (hpoint : '.' ∉ text) :
    q = Nat.ofDigitChars 10 text 0 := by
  cases h with
  | integer => rfl
  | decimal => exact absurd (List.mem_append_right _ List.mem_cons_self) hpoint

end Numeral

/-- A number token of some scan, what its lexeme stands for, and the double that it carries. -/
structure Token.Carries (t : Token) (q : ℚ) (x : Binary64) : Prop where
  scanned : ∃ source, t ∈ (scan source).tokens
  kind : t.kind = .number
  numeral : Numeral t.lexeme.toList q
  literal : t.literal = some (.number x)

namespace Token
variable {t u : Token} {q r : ℚ} {x y : Binary64}

private theorem denotes_of_scanned {source : String} (ht : t ∈ (scan source).tokens)
    (hkind : t.kind = .number) : Denotes t.lexeme.toList .number t.literal := by
  rcases occurs_of_mem_tokens ht with hwell | ⟨hend, -⟩
  · rw [← hkind]
    exact hwell
  · rw [hkind] at hend
    cases hend

theorem exists_carries {source : String} (ht : t ∈ (scan source).tokens)
    (hkind : t.kind = .number) : ∃ q x, t.Carries q x := by
  have hdenotes := denotes_of_scanned ht hkind
  obtain ⟨q, hq⟩ := Numeral.exists_of_denotes hdenotes
  obtain ⟨x, hx, -⟩ := hq.denotes
  exact ⟨q, x, ⟨source, ht⟩, hkind, hq, hdenotes.literal_eq hx⟩

theorem Carries.roundsTo (h : t.Carries q x) : Binary64.RoundsTo q x := by
  obtain ⟨⟨source, ht⟩, hkind, hq, hx⟩ := h
  obtain ⟨y, hy, hround⟩ := hq.denotes
  have hsame := (denotes_of_scanned ht hkind).literal_eq hy
  rw [hx] at hsame
  cases hsame
  exact hround

end Token

/-- Every number token carries a double, which is the one nearest to what the lexeme stands for, of
two the even one. It is infinite just where that is half a step or more past the last finite double,
and zero just where it is at most half the least positive one. It is never a NaN and has no sign.
Lexemes that stand for the same carry the same bits, so zeros in front or at the end of a fraction
make no difference, and what stands for more never carries less. -/
theorem number_tokens_rounded :
    (∀ source, ∀ t ∈ (scan source).tokens, t.kind = .number → ∃ q x, t.Carries q x) ∧
      (∀ t q x, Token.Carries t q x → Binary64.RoundsTo q x ∧
        (x = .ofMagnitude Binary64.infinityBits ↔ Binary64.overflowBound ≤ q) ∧
        (x = .ofMagnitude 0 ↔ q ≤ 1 / 2 ^ 1075) ∧ x.isNaN = false ∧ x.isNegative = false) ∧
      (∀ t u q r x y, Token.Carries t q x → Token.Carries u r y →
        (q = r → x.bits = y.bits) ∧ (q ≤ r → x.value ≤ y.value)) ∧
      ∀ text q, Numeral text q → Numeral ('0' :: text) q ∧
        ('.' ∈ text → Numeral (text ++ ['0']) q) ∧
        ('.' ∉ text → Numeral (text ++ ['.', '0']) q) := by
  refine ⟨fun _ _ => Token.exists_carries, fun t q x h => ?_, fun t u q r x y ht hu => ?_,
    fun text q h => ⟨h.cons_zero, h.concat_zero, h.append_point_zero⟩⟩
  · have hround := h.roundsTo
    exact ⟨hround, hround.eq_infinity_iff, hround.eq_zero_iff, hround.isNaN_eq,
      hround.isNegative_eq⟩
  · refine ⟨fun hqr => ?_, fun hqr => ht.roundsTo.value_le_value hqr hu.roundsTo⟩
    subst hqr
    rw [ht.roundsTo.eq hu.roundsTo]

/-- A tie that goes down to the even neighbour, with zeros around it or without them. -/
theorem number_tokens_rounded_tie :
    let source := "9007199254740993 09007199254740993.0"
    let x : Binary64 := ⟨0x4340000000000000⟩
    let t : Token := ⟨.number, "9007199254740993", some (.number x), 1⟩
    let y : Binary64 := .nearestToRatio 90071992547409930 10
    let u : Token := ⟨.number, "09007199254740993.0", some (.number y), 1⟩
    (t ∈ (scan source).tokens ∧ t.kind = .number ∧ ∃ q z, t.Carries q z) ∧
      (t.Carries 9007199254740993 x ∧ Binary64.RoundsTo 9007199254740993 x) ∧
      (u.Carries 9007199254740993 y ∧ x.bits = y.bits ∧ x.value ≤ y.value) ∧
      Numeral "09007199254740993.0".toList 9007199254740993 := by
  intro source x t y u
  obtain ⟨hscanned, hcarries, hpairs, hzeros⟩ := number_tokens_rounded
  obtain ⟨htokens, hdigits, hvalue⟩ :
      (scan source).tokens = [t, u, ⟨.endOfInput, "", none, 1⟩] ∧
        (t.lexeme.toList.all Char.isDigit = true) ∧
        Nat.ofDigitChars 10 t.lexeme.toList 0 = 9007199254740993 := by decide +kernel
  have ht : t ∈ (scan source).tokens := by
    rw [htokens]
    exact List.mem_cons_self
  have hu : u ∈ (scan source).tokens := by
    rw [htokens]
    exact List.mem_cons_of_mem _ List.mem_cons_self
  have hnumeral : Numeral "9007199254740993".toList 9007199254740993 := by
    have hinteger : Numeral t.lexeme.toList _ :=
      .integer ⟨by decide, List.all_eq_true.mp hdigits⟩
    rw [hvalue] at hinteger
    exact_mod_cast hinteger
  have hlonger : Numeral "09007199254740993.0".toList 9007199254740993 :=
    (hzeros _ _ (hzeros _ _ hnumeral).1).2.2 (by decide)
  have hfirst : t.Carries 9007199254740993 x := ⟨⟨source, ht⟩, rfl, hnumeral, rfl⟩
  have hsecond : u.Carries 9007199254740993 y := ⟨⟨source, hu⟩, rfl, hlonger, rfl⟩
  obtain ⟨hbits, hvalues⟩ := hpairs t u _ _ _ _ hfirst hsecond
  exact ⟨⟨ht, rfl, hscanned source t ht rfl⟩, ⟨hfirst, (hcarries t _ _ hfirst).1⟩,
    ⟨hsecond, hbits rfl, hvalues le_rfl⟩, hlonger⟩

end LoxLexis
