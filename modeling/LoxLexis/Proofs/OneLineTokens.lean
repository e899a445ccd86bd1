import LoxLexis.Proofs.ShownTokens

/-! In the debug layout a token takes one line, and the line tells the token. -/
namespace LoxLexis
open Alphabet

namespace Text

/-- The control characters of Unicode, newlines and tabs among them. -/
def isControl (c : Char) : Bool := c.toNat < 0x20 || (0x7f ≤ c.toNat && c.toNat < 0xa0)

def Visible (text : List Char) : Prop := ∀ c ∈ text, isControl c = false

private theorem visible_append_iff {first second : List Char} :
    Visible (first ++ second) ↔ Visible first ∧ Visible second :=
  List.forall_mem_append

private theorem visible_of_all {text : List Char} (h : text.all fun c => !isControl c) :
    Visible text := by
  intro c hc
  simpa using List.all_eq_true.mp h c hc

private theorem isControl_of_isWordPart {c : Char} (h : isWordPart c = true) :
    isControl c = false := by
  rcases isWordPart_iff.mp h with h | rfl
  · simp only [Char.isAlphanum, Char.isAlpha, Char.isUpper, Char.isLower, Char.isDigit,
      Bool.or_eq_true, Bool.and_eq_true, decide_eq_true_eq, UInt32.le_iff_toNat_le, ge_iff_le] at h
    change ((65 ≤ c.toNat ∧ c.toNat ≤ 90) ∨ (97 ≤ c.toNat ∧ c.toNat ≤ 122)) ∨
      (48 ≤ c.toNat ∧ c.toNat ≤ 57) at h
    simp only [isControl, Bool.or_eq_false_iff, Bool.and_eq_false_iff, decide_eq_false_iff_not]
    omega
  · rfl

private theorem visible_toDigits (n : Nat) : Visible (Nat.toDigits 16 n) := by
  intro d hd
  obtain ⟨k, hk, rfl⟩ := exists_digitChar_of_mem_toDigits hd
  interval_cases k <;> rfl

private theorem isUnprintable_of_isControl {c : Char} (h : isControl c = true) :
    isUnprintable c = true := by
  have hfirst : unprintableRanges = (0x0, 0x1f) :: (0x7f, 0xa0) :: unprintableRanges.drop 2 := rfl
  simp only [isControl, Bool.or_eq_true, Bool.and_eq_true, decide_eq_true_eq] at h
  rw [isUnprintable, hfirst]
  simp only [coveredBy, Nat.not_lt_zero, if_false, Bool.or_eq_true, decide_eq_true_eq]
  by_cases hlow : c.toNat ≤ 0x1f
  · exact Or.inl hlow
  · rw [if_neg (by omega), Bool.or_eq_true, decide_eq_true_eq]
    exact Or.inr (Or.inl (by omega))

private theorem visible_escape (c : Char) : Visible (escape c) := by
  unfold escape
  split_ifs with _ _ _ _ _ _ hhex
  iterate 6
    · exact visible_of_all (by decide)
  · simp only [visible_append_iff]
    exact ⟨⟨visible_of_all (by decide), visible_toDigits _⟩, visible_of_all (by decide)⟩
  · intro d hd
    obtain rfl := List.mem_singleton.mp hd
    rw [← Bool.not_eq_true]
    exact fun hcontrol => hhex (isUnprintable_of_isControl hcontrol)

private theorem visible_quoted (text : String) : Visible (quoted text).toList := by
  have hquote : Visible ['"'] := visible_of_all (by decide)
  have hbody : Visible (text.toList.flatMap escape) := by
    intro c hc
    obtain ⟨d, -, hd⟩ := List.mem_flatMap.mp hc
    exact visible_escape d c hd
  rw [quoted, String.toList_ofList, ← List.singleton_append, visible_append_iff,
    visible_append_iff]
  exact ⟨⟨hquote, hbody⟩, hquote⟩

end Text

open Text

private theorem Binary64.visible_write (x : Binary64) : Visible (x.write Literal.numberStyle) := by
  intro c hc
  have hpart := write_part hc
  simp only [Bool.or_eq_true, beq_iff_eq] at hpart
  rcases hpart with (hpart | rfl) | rfl
  · exact isControl_of_isWordPart (isWordPart_iff.mpr (Or.inl hpart))
  · rfl
  · rfl

namespace Literal

private theorem visible_writeQuoted (v : Literal) : Visible v.writeQuoted.toList := by
  have hend : Visible ")".toList := visible_of_all (by decide)
  cases v with
  | number x =>
    simp only [writeQuoted, String.toList_append, String.toList_ofList, visible_append_iff]
    exact ⟨⟨visible_of_all (by decide), x.visible_write⟩, hend⟩
  | string s =>
    simp only [writeQuoted, String.toList_append, visible_append_iff]
    exact ⟨⟨visible_of_all (by decide), visible_quoted s⟩, hend⟩

private theorem visible_writeOptional (v : Option Literal) : Visible (writeOptional v).toList := by
  cases v with
  | none => exact visible_of_all (by decide)
  | some v =>
    simp only [writeOptional, String.toList_append, visible_append_iff]
    exact ⟨⟨visible_of_all (by decide), v.visible_writeQuoted⟩, visible_of_all (by decide)⟩

end Literal

private theorem Kind.visible_title (k : Kind) : Visible k.title.toList := by
  have hall : ∀ k ∈ Kind.all, k.title.toList.all fun c => !isControl c := by decide +kernel
  exact visible_of_all (hall k k.mem_all)

namespace Token

private theorem visible_debug (t : Token) : Visible t.debug.toList := by
  have hline : Visible t.line.repr.toList := fun c hc =>
    isControl_of_isWordPart (isWordPart_of_isDigit ((digits_repr t.line).2 c hc))
  have hliteral : Visible (Literal.writeOptional t.literal).toList :=
    Literal.visible_writeOptional t.literal
  simp only [debug_eq, String.toList_append, visible_append_iff]
  refine ⟨⟨⟨⟨⟨⟨⟨⟨?_, t.kind.visible_title⟩, ?_⟩, visible_quoted t.lexeme⟩, ?_⟩, hliteral⟩, ?_⟩,
    hline⟩, ?_⟩ <;> exact visible_of_all (by decide)

/-- Two tokens are shown alike only if they are the same in all parts, all NaNs being one, and
nothing that is shown leaves the line. -/
theorem debug_faithful (t u : Token) :
    (t.render .debug = u.render .debug ↔
      t.kind = u.kind ∧ t.lexeme = u.lexeme ∧ t.line = u.line ∧
        Option.Rel Literal.SameValue t.literal u.literal) ∧
      ∀ c ∈ (t.render .debug).toList, isControl c = false := by
  refine ⟨⟨fun h => ?_, ?_⟩, t.visible_debug⟩
  · have hlist := congrArg (fun shown => shown.toList ++ []) h
    obtain ⟨hkind, hlexeme, hvalue, hline, -⟩ := debug_append_inj hlist
    exact ⟨hkind, hlexeme, hline, hvalue⟩
  · rintro ⟨hkind, hlexeme, hline, hvalue⟩
    rw [render, debug_eq, debug_eq, hkind, hlexeme, hline, Literal.writeOptional_congr hvalue]

end Token
end LoxLexis
