import LoxLexis.Proofs.LexemeEnds
import LoxLexis.Proofs.MaximalMunch

/-! Texts put one behind the other: where the lexemes of the first stay as they are. -/
namespace LoxLexis
open Alphabet

private theorem Spells.exists_body {k : Category} {w : List Char} (h : Spells k ('"' :: w)) :
    ∃ body, '"' ∉ body ∧ w = body ++ ['"'] := by
  have hcut := Lexeme.first_of_isLongest h.isLongest_nil
  rw [List.append_nil, Lexeme.first_of_quote] at hcut
  by_cases hq : '"' ∈ w
  · obtain ⟨body, more, rfl, hbody⟩ := List.eq_append_cons_of_mem hq
    rw [Lexeme.firstString_of_closed hbody] at hcut
    exact ⟨body, hbody, (Lexeme.mk.inj (Prod.mk.inj hcut).1).2.2.symm⟩
  · rw [Lexeme.firstString_of_open hq] at hcut
    obtain rfl := (Lexeme.mk.inj (Prod.mk.inj hcut).1).1
    cases h

/-- A lexeme is cut as it is whatever stands behind a blank after its text. Only a comment at the
end of the text needs a newline there. -/
theorem IsLongest.append {k : Category} {piece rest more : List Char} (h : IsLongest k piece rest)
    (hmore : ∀ c ∈ more.head?, isBlank c = true)
    (hend : k = .comment → rest = [] → ∀ c ∈ more.head?, c = '\n') :
    IsLongest k piece (rest ++ more) := by
  cases more with
  | nil => rwa [List.append_nil]
  | cons b more =>
    have hb := hmore b rfl
    rw [← List.append_nil rest] at h
    refine h.of_divider (Or.inl hb) (isDigit_eq_false_of_isBlank hb) ?_ fun hk hr => hend hk hr b rfl
    rintro rfl
    cases hb

/-- Every lexeme but a comment is cut as it is where a blank or nothing follows. -/
theorem Spells.isLongest {k : Category} {piece rest : List Char} (h : Spells k piece)
    (hk : k ≠ .comment) (hrest : ∀ c ∈ rest.head?, isBlank c = true) : IsLongest k piece rest :=
  h.isLongest_nil.append hrest fun hc => absurd hc hk

private theorem Spells.exists_singleton {k : Category} {c : Char} {w : List Char}
    (h : Spells k (c :: w))
    (hc : c ≠ '"') : ∃ j, Spells j [c] := by
  generalize hn : c :: w = piece at h
  cases h with
  | blank hb =>
    obtain rfl := (List.cons.inj hn).1
    exact ⟨_, .blank hb⟩
  | comment =>
    obtain rfl := (List.cons.inj hn).1
    exact ⟨_, .mark .slash⟩
  | string => exact absurd (List.cons.inj hn).1 hc
  | integer hw =>
    subst hn
    exact ⟨_, .integer ⟨List.cons_ne_nil _ _, by simpa using hw.2 c List.mem_cons_self⟩⟩
  | decimal hw =>
    obtain ⟨d, whole, rfl⟩ := List.exists_cons_of_ne_nil hw.1
    obtain rfl : c = d := (List.cons.inj hn).1
    exact ⟨_, .integer ⟨List.cons_ne_nil _ _, by simpa using hw.2 c List.mem_cons_self⟩⟩
  | word hw =>
    obtain ⟨hstart, -⟩ := hw
    obtain rfl := (List.cons.inj hn).1
    exact ⟨_, .word (.mk hstart (by simp))⟩
  | mark m =>
    have hsingle {n : Mark} (hd : Mark.ofChar? c = some n) : ∃ j, Spells j [c] := by
      have hs := Spells.mark n
      rw [Mark.spelling_of_ofChar? hd] at hs
      exact ⟨_, hs⟩
    rcases Mark.spelling_cases m with ⟨d, hd, hs⟩ | ⟨d, n, hd, -, hs⟩ <;> rw [hs] at hn <;>
      obtain rfl := (List.cons.inj hn).1 <;> exact hsingle hd

/-- A stray character is one whatever follows it. -/
theorem Unmatched.of_ne_quote {c : Char} {rest : List Char} (h : Unmatched (c :: rest))
    (hc : c ≠ '"') (other : List Char) : Unmatched (c :: other) := by
  intro k piece hs hp
  obtain ⟨w, rfl, -⟩ := exists_cons_of_prefix hs.ne_nil hp
  obtain ⟨j, hj⟩ := hs.exists_singleton hc
  exact h j [c] hj ⟨rest, rfl⟩

theorem unmatched_quote_iff {rest : List Char} : Unmatched ('"' :: rest) ↔ '"' ∉ rest := by
  refine ⟨Unmatched.quote_not_mem, fun h k piece hs hp => ?_⟩
  obtain ⟨w, rfl, hw⟩ := exists_cons_of_prefix hs.ne_nil hp
  obtain ⟨body, -, rfl⟩ := hs.exists_body
  exact h (hw.subset (by simp))

theorem Denotes.ne_comment {k : Category} {piece : List Char} {kind : Kind}
    {literal : Option Literal} (h : Denotes piece kind literal) (hs : Spells k piece) :
    k ≠ .comment := by
  rintro rfl
  obtain ⟨k, hk, hpiece⟩ := h.spells
  rw [hpiece.unique hs] at hk
  cases kind <;> cases hk

/-- Texts are scanned one by one where the second begins with a newline and the first leaves no
string open. -/
theorem Munch.append {before text more : List Char} {pieces later : List (List Char)}
    {tokens tokens' : List Token} {faults faults' : List Fault}
    (h : Munch before text pieces tokens faults)
    (hclosed : faults.any Fault.isUnterminated = false) (hmore : ∀ c ∈ more.head?, c = '\n')
    (hm : Munch (before ++ text) more later tokens' faults') :
    Munch before (text ++ more) (pieces ++ later) (tokens ++ tokens') (faults ++ faults') := by
  have hblank (c : Char) (hc : c ∈ more.head?) : isBlank c = true := by
    rw [hmore c hc]
    rfl
  induction h with
  | done => simpa using hm
  | @token before piece rest pieces tokens faults k kind literal hl hd _ ih =>
    rw [← List.append_assoc] at hm
    rw [List.append_assoc]
    exact .token (hl.append hblank fun _ _ => hmore) hd (ih hclosed hm)
  | @gap before piece rest pieces tokens faults k hl hk _ ih =>
    rw [← List.append_assoc] at hm
    rw [List.append_assoc]
    exact .gap (hl.append hblank fun _ _ => hmore) hk (ih hclosed hm)
  | openString => cases hclosed
  | @stray before rest pieces tokens faults c hu hc _ ih =>
    rw [List.append_cons] at hm
    exact .stray (hu.of_ne_quote hc _) hc (ih hclosed hm)

end LoxLexis
