import LoxLexis.Proofs.LongestFit
import LoxLexis.Scan.Basic

/-! A scan is the one derivation by longest match. -/
namespace LoxLexis

/-- The line on which a text goes on after another. -/
def lineAfter (before : List Char) : Nat := 1 + before.count '\n'

theorem lineAfter_append (before piece : List Char) :
    lineAfter (before ++ piece) = lineAfter before + piece.count '\n' := by
  rw [lineAfter, lineAfter, List.count_append, Nat.add_assoc]

theorem lineAfter_le_of_prefix {before longer : List Char} (h : before <+: longer) :
    lineAfter before ≤ lineAfter longer := by
  obtain ⟨more, rfl⟩ := h
  rw [lineAfter_append]
  exact Nat.le_add_right _ _

def Token.atEnd (source : String) : Token := ⟨.endOfInput, "", none, lineAfter source.toList⟩

/-- Cutting up a text that stands after another: the pieces, the tokens and the faults. Each rule
takes the longest beginning in one of the forms. Where there is none, a quote takes all that
follows it and any other character stands alone. -/
inductive Munch : List Char → List Char → List (List Char) → List Token → List Fault → Prop where
  | done {before : List Char} : Munch before [] [] [] []
  | token {before piece rest : List Char} {pieces : List (List Char)} {tokens : List Token}
      {faults : List Fault} {k : Category} {kind : Kind} {literal : Option Literal} :
      IsLongest k piece rest → Denotes piece kind literal →
      Munch (before ++ piece) rest pieces tokens faults →
      Munch before (piece ++ rest) (piece :: pieces)
        (⟨kind, String.ofList piece, literal, lineAfter before⟩ :: tokens) faults
  | gap {before piece rest : List Char} {pieces : List (List Char)} {tokens : List Token}
      {faults : List Fault} {k : Category} :
      IsLongest k piece rest → k = .blank ∨ k = .comment →
      Munch (before ++ piece) rest pieces tokens faults →
      Munch before (piece ++ rest) (piece :: pieces) tokens faults
  | openString {before rest : List Char} : Unmatched ('"' :: rest) →
      Munch before ('"' :: rest) ['"' :: rest] []
        [.unterminatedString (lineAfter (before ++ '"' :: rest))]
  | stray {before rest : List Char} {pieces : List (List Char)} {tokens : List Token}
      {faults : List Fault} {c : Char} : Unmatched (c :: rest) → c ≠ '"' →
      Munch (before ++ [c]) rest pieces tokens faults →
      Munch before (c :: rest) ([c] :: pieces) tokens
        (.unexpectedCharacter c (lineAfter before) :: faults)

namespace Lexeme

private theorem sequence_of_isLongest {k : Category} {c : Char} {w rest : List Char}
    (h : IsLongest k (c :: w) rest) :
    sequence (c :: (w ++ rest)) = ⟨k, c, w⟩ :: sequence rest := by
  rw [sequence_cons, first_of_isLongest h]

theorem numeralValue_integer {whole : List Char} (h : Digits whole) :
    numeralValue whole = Binary64.nearestToRatio (Nat.ofDigitChars 10 whole 0) 1 := by
  have hall : ∀ c ∈ whole, c.isDigit = true := h.2
  have htake := List.takeWhile_eq_self_iff.mpr hall
  have hdrop := List.dropWhile_eq_nil_iff.mpr hall
  simp [numeralValue, htake, hdrop]

theorem numeralValue_decimal {whole fraction : List Char} (h : Digits whole) :
    numeralValue (whole ++ '.' :: fraction) =
      Binary64.nearestToRatio (Nat.ofDigitChars 10 (whole ++ fraction) 0)
        (10 ^ fraction.length) := by
  have hall : ∀ c ∈ whole, c.isDigit = true := h.2
  have hpoint : Char.isDigit '.' = false := by decide
  simp [numeralValue, List.takeWhile_append_of_pos hall, List.dropWhile_append_of_pos hall, hpoint]

/-- The kind and the value of a lexeme are those that its text denotes. -/
theorem kind?_literal?_of_denotes {l : Lexeme} {kind : Kind} {literal : Option Literal}
    (hs : Spells l.category l.chars) (hd : Denotes l.chars kind literal) :
    l.kind? = some kind ∧ l.literal? = literal := by
  generalize hp : l.chars = piece at hs hd
  cases hd with
  | mark m =>
    have hc := hs.unique (.mark m)
    exact ⟨by simp [kind?, hc], by simp [literal?, hc]⟩
  | keyword k =>
    have hc := hs.unique (.word k.word_spelling)
    have ht : l.text = k.spelling := by rw [text, hp, String.ofList_toList]
    exact ⟨by simp [kind?, hc, ht, Keyword.ofSpelling?_spelling], by simp [literal?, hc]⟩
  | identifier hw hne =>
    have hc := hs.unique (.word hw)
    have hnone : Keyword.ofSpelling? l.text = none := by
      rw [Option.eq_none_iff_forall_ne_some]
      intro k hk
      have ht := Keyword.ofSpelling?_eq_some_iff.mp hk
      exact hne k (by rw [← ht, text, String.toList_ofList, hp])
    exact ⟨by simp [kind?, hc, hnone], by simp [literal?, hc]⟩
  | @string body hb =>
    have hc := hs.unique (.string hb)
    have ht : l.tail = body ++ ['"'] := (List.cons.inj hp).2
    exact ⟨by simp [kind?, hc], by simp [literal?, hc, ht]⟩
  | integer hw =>
    have hc := hs.unique (.integer hw)
    exact ⟨by simp [kind?, hc], by simp [literal?, hc, hp, numeralValue_integer hw]⟩
  | decimal hw hf =>
    have hc := hs.unique (.decimal hw hf)
    exact ⟨by simp [kind?, hc], by simp [literal?, hc, hp, numeralValue_decimal hw]⟩

theorem token?_of_denotes {l : Lexeme} {kind : Kind} {literal : Option Literal}
    (hs : Spells l.category l.chars) (hd : Denotes l.chars kind literal) (line : Nat) :
    l.token? line = some ⟨kind, String.ofList l.chars, literal, line⟩ := by
  obtain ⟨hk, hl⟩ := kind?_literal?_of_denotes hs hd
  rw [token?, hk, hl]
  rfl

theorem token?_of_gap {l : Lexeme} (h : l.category = .blank ∨ l.category = .comment)
    (line : Nat) : l.token? line = none := by
  rcases h with h | h <;> simp [token?, kind?, h]

theorem fault?_of_spells {l : Lexeme} (h : Spells l.category l.chars) (line : Nat) :
    l.fault? line = none := by
  generalize hk : l.category = k at h
  generalize l.chars = piece at h
  cases h <;> simp [fault?, hk]

end Lexeme

/-- A text in one of the forms denotes something or is a gap between tokens. -/
theorem Spells.denotes_or_gap {k : Category} {piece : List Char} (h : Spells k piece) :
    (∃ kind literal, Denotes piece kind literal) ∨ k = .blank ∨ k = .comment := by
  cases h with
  | mark m => exact Or.inl ⟨_, _, .mark m⟩
  | blank => exact Or.inr (Or.inl rfl)
  | comment => exact Or.inr (Or.inr rfl)
  | string hb => exact Or.inl ⟨_, _, .string hb⟩
  | integer hw => exact Or.inl ⟨_, _, .integer hw⟩
  | decimal hw hf => exact Or.inl ⟨_, _, .decimal hw hf⟩
  | word hw =>
    by_cases hk : ∃ k : Keyword, k.spelling.toList = piece
    · obtain ⟨k, rfl⟩ := hk
      exact Or.inl ⟨_, _, .keyword k⟩
    · exact Or.inl ⟨_, _, .identifier hw fun k hne => hk ⟨k, hne⟩⟩

namespace Lexeme

/-- Texts are shown to have a property one lexeme after another. -/
theorem sequence_induction {P : List Char → Prop} (nil : P [])
    (cons : ∀ c text, P (first c text).2 → P (c :: text)) (text : List Char) : P text := by
  induction h : text.length using Nat.strongRecOn generalizing text with
  | _ n ih =>
    cases text with
    | nil => exact nil
    | cons c text =>
      refine cons c text (ih _ ?_ _ rfl)
      rw [← h]
      exact Nat.lt_succ_of_le (first_rest_length_le c text)

end Lexeme

open Lexeme

/-- The scan's own cuts make a derivation. -/
theorem munch_sequence (before text : List Char) :
    Munch before text ((sequence text).map chars) (tokensFrom (lineAfter before) (sequence text))
      (faultsFrom (lineAfter before) (sequence text)) := by
  induction text using sequence_induction generalizing before with
  | nil =>
    rw [sequence_nil]
    exact .done
  | cons c text ih =>
    have happ := first_append c text
    have hlater := ih (before ++ (first c text).1.chars)
    rw [sequence_cons, List.map_cons, tokensFrom, faultsFrom]
    rw [lineAfter_append] at hlater
    rcases first_cut c text with hl | ⟨hu, rfl, hf⟩ | ⟨hu, hc, hf⟩
    · rw [← happ, fault?_of_spells hl.spells]
      rcases hl.spells.denotes_or_gap with ⟨kind, literal, hd⟩ | hgap
      · rw [token?_of_denotes hl.spells hd]
        exact .token hl hd hlater
      · rw [token?_of_gap hgap]
        exact .gap hl hgap hlater
    · have hopen : Munch before ('"' :: text) _ _ _ := .openString hu
      rw [lineAfter_append] at hopen
      rw [hf, sequence_nil]
      exact hopen
    · rw [hf] at hlater ⊢
      exact .stray hu hc hlater

variable {before text : List Char} {pieces : List (List Char)} {tokens : List Token}
  {faults : List Fault}

/-- No other derivation exists. -/
theorem Munch.eq_sequence (h : Munch before text pieces tokens faults) :
    pieces = (sequence text).map chars ∧ tokens = tokensFrom (lineAfter before) (sequence text) ∧
      faults = faultsFrom (lineAfter before) (sequence text) := by
  induction h with
  | done => simp [sequence_nil, tokensFrom, faultsFrom]
  | @token before piece rest pieces tokens faults k kind literal hl hd _ ih =>
    obtain ⟨c, w, rfl⟩ := List.exists_cons_of_ne_nil hl.spells.ne_nil
    obtain ⟨rfl, rfl, rfl⟩ := ih
    have ht := token?_of_denotes (l := ⟨k, c, w⟩) hl.spells hd
    have hn := fault?_of_spells (l := ⟨k, c, w⟩) hl.spells
    rw [List.cons_append, sequence_of_isLongest hl, lineAfter_append]
    simp only [tokensFrom, faultsFrom, ht, hn]
    exact ⟨rfl, rfl, rfl⟩
  | @gap before piece rest pieces tokens faults k hl hk _ ih =>
    obtain ⟨c, w, rfl⟩ := List.exists_cons_of_ne_nil hl.spells.ne_nil
    obtain ⟨rfl, rfl, rfl⟩ := ih
    have ht := token?_of_gap (l := ⟨k, c, w⟩) hk
    have hn := fault?_of_spells (l := ⟨k, c, w⟩) hl.spells
    rw [List.cons_append, sequence_of_isLongest hl, lineAfter_append]
    simp only [tokensFrom, faultsFrom, ht, hn]
    exact ⟨rfl, rfl, rfl⟩
  | @openString before rest hu =>
    rw [sequence_cons, first_of_unmatched hu, if_pos rfl, sequence_nil, lineAfter_append]
    exact ⟨rfl, rfl, rfl⟩
  | stray hu hc _ ih =>
    obtain ⟨rfl, rfl, rfl⟩ := ih
    rw [sequence_cons, first_of_unmatched hu, if_neg hc, lineAfter_append]
    exact ⟨rfl, rfl, rfl⟩

theorem Munch.flatten_pieces (h : Munch before text pieces tokens faults) :
    pieces.flatten = text ∧ [] ∉ pieces := by
  induction h with
  | done => exact ⟨rfl, List.not_mem_nil⟩
  | token hl _ _ ih | gap hl _ _ ih =>
    exact ⟨by rw [List.flatten_cons, ih.1],
      List.not_mem_cons_of_ne_of_not_mem hl.spells.ne_nil.symm ih.2⟩
  | openString => exact ⟨List.append_nil _, by simp⟩
  | stray _ _ _ ih =>
    exact ⟨by rw [List.flatten_cons, ih.1]; rfl,
      List.not_mem_cons_of_ne_of_not_mem (List.cons_ne_nil _ _).symm ih.2⟩

def cuts (source : String) : List (List Char) := (sequence source.toList).map chars

/-- The derivation of a whole source. -/
theorem munch_scan (source : String) :
    ∃ tokens, (scan source).tokens = tokens ++ [Token.atEnd source] ∧
      Munch [] source.toList (cuts source) tokens (scan source).faults := by
  refine ⟨_, scan_tokens source, ?_⟩
  rw [scan_faults]
  exact munch_sequence [] source.toList

theorem Munch.scan_eq {source : String} (h : Munch [] source.toList pieces tokens faults) :
    scan source = ⟨tokens ++ [Token.atEnd source], faults⟩ := by
  obtain ⟨-, ht, hf⟩ := h.eq_sequence
  rw [ht, hf]
  exact Scan.ext (scan_tokens source) (scan_faults source)

/-- A scan cuts the source into pieces, each the longest beginning of what is left in one of the
forms, and the tokens and faults are those of the pieces. No other cutting by longest match
exists, and the sink only takes in the faults. -/
theorem scan_iff_munch (source : String) :
    (cuts source).flatten = source.toList ∧ [] ∉ cuts source ∧
      (∀ pieces tokens faults, Munch [] source.toList pieces tokens faults ↔
        pieces = cuts source ∧ scan source = ⟨tokens ++ [Token.atEnd source], faults⟩) ∧
      ∀ (σ : Type) (report : σ → Fault → σ) (sink : σ), scanInto report sink source =
        ((scan source).tokens, (scan source).faults.foldl report sink) := by
  obtain ⟨tokens, ht, hm⟩ := munch_scan source
  refine ⟨hm.flatten_pieces.1, hm.flatten_pieces.2, fun pieces tokens' faults => ⟨fun h => ?_, ?_⟩,
    fun σ report sink => scanInto_eq report sink source⟩
  · exact ⟨h.eq_sequence.1, h.scan_eq⟩
  · rintro ⟨rfl, hs⟩
    have hall : (scan source).tokens = tokens' ++ [Token.atEnd source] := congrArg Scan.tokens hs
    have hfaults : (scan source).faults = faults := congrArg Scan.faults hs
    obtain rfl := List.append_cancel_right (ht.symm.trans hall)
    exact hfaults ▸ hm

end LoxLexis
