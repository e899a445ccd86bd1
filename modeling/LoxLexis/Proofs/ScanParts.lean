import LoxLexis.Proofs.OpenStrings
import LoxLexis.Proofs.PrintedTokens

/-! A scan that begins on any line, and what each part of the text adds to it. -/
namespace LoxLexis
open Alphabet Lexeme

instance : Append Scan := ⟨fun a b => ⟨a.tokens ++ b.tokens, a.faults ++ b.faults⟩⟩

@[simp] theorem Scan.tokens_append (a b : Scan) : (a ++ b).tokens = a.tokens ++ b.tokens := rfl

@[simp] theorem Scan.faults_append (a b : Scan) : (a ++ b).faults = a.faults ++ b.faults := rfl

theorem Scan.append_assoc (a b c : Scan) : a ++ b ++ c = a ++ (b ++ c) :=
  Scan.ext (List.append_assoc _ _ _) (List.append_assoc _ _ _)

/-- What a scan finds in lexemes that begin on the given line. -/
def scanLexemes (line : Nat) (lexemes : List Lexeme) : Scan :=
  ⟨tokensFrom line lexemes, faultsFrom line lexemes⟩

theorem scanLexemes_cons (line : Nat) (l : Lexeme) (rest : List Lexeme) :
    scanLexemes line (l :: rest) = scanLexemes line [l] ++ scanLexemes (line + l.newlines) rest := by
  apply Scan.ext <;> simp [scanLexemes, tokensFrom, faultsFrom]

def scanFrom (line : Nat) (text : List Char) : Scan :=
  scanLexemes line (sequence text) ++ ⟨[⟨.endOfInput, "", none, line + text.count '\n'⟩], []⟩

theorem scan_eq_scanFrom (source : String) : scan source = scanFrom 1 source.toList := by
  apply Scan.ext
  · rw [scan_tokens]
    rfl
  · rw [scan_faults]
    exact (List.append_nil _).symm

theorem scan_ofList (text : List Char) : scan (String.ofList text) = scanFrom 1 text := by
  rw [scan_eq_scanFrom, String.toList_ofList]

/-- Further down, a scan finds the same. -/
theorem scanFrom_add (line lines : Nat) (text : List Char) :
    scanFrom (line + lines) text =
      ⟨(scanFrom line text).tokens.map (Token.later lines),
        (scanFrom line text).faults.map (Fault.later lines)⟩ := by
  apply Scan.ext
  · simp [scanFrom, scanLexemes, tokensFrom_add, Token.later, Nat.add_right_comm]
  · simp [scanFrom, scanLexemes, faultsFrom_add]

section Parts
variable {k : Category} {piece rest body : List Char} {kind : Kind} {literal : Option Literal}
  {c : Char} (line : Nat)

theorem scanFrom_nil : scanFrom line [] = ⟨[⟨.endOfInput, "", none, line⟩], []⟩ := by
  rw [scanFrom, sequence_nil]
  rfl

theorem scanFrom_of_first {l : Lexeme} (h : first l.head (l.tail ++ rest) = (l, rest)) :
    scanFrom line (l.chars ++ rest) =
      scanLexemes line [l] ++ scanFrom (line + l.newlines) rest := by
  have hcount : line + (l.chars ++ rest).count '\n' = line + l.newlines + rest.count '\n' := by
    rw [List.count_append, newlines, Nat.add_assoc]
  rw [scanFrom, hcount, chars, List.cons_append, sequence_cons, h, scanLexemes_cons,
    Scan.append_assoc, scanFrom]

theorem Unmatched.ne_newline (h : Unmatched (c :: rest)) : c ≠ '\n' := by
  rintro rfl
  have hspells : Spells .blank ['\n'] := .blank (by simp)
  exact h _ _ hspells ⟨rest, rfl⟩

/-- The lexeme that is cut. -/
theorem IsLongest.exists_first (h : IsLongest k piece rest) :
    ∃ l : Lexeme, l.category = k ∧ l.chars = piece ∧ first l.head (l.tail ++ rest) = (l, rest) := by
  obtain ⟨c, w, rfl⟩ := List.exists_cons_of_ne_nil h.spells.ne_nil
  exact ⟨⟨k, c, w⟩, rfl, rfl, first_of_isLongest h⟩

/-- A lexeme that is cut and no fault is the longest beginning in one of the forms. -/
theorem isLongest_of_first {l : Lexeme} (h : first l.head (l.tail ++ rest) = (l, rest))
    (hk : l.category.isFault = false) : IsLongest l.category l.chars rest := by
  rcases first_eq_cases h with hl | ⟨hopen, -⟩ | ⟨hstray, -⟩
  · exact hl
  · rw [hopen] at hk
    cases hk
  · rw [hstray] at hk
    cases hk

/-- An open string takes in all that is left. -/
theorem eq_nil_of_openString {l : Lexeme} (h : first l.head (l.tail ++ rest) = (l, rest))
    (hl : l.category = .openString) : rest = [] := by
  rcases first_eq_cases h with hlongest | ⟨-, hrest⟩ | ⟨hstray, -⟩
  · have hs := hlongest.spells
    rw [hl] at hs
    cases hs
  · exact hrest
  · rw [hl] at hstray
    cases hstray

theorem scanLexemes_gap {l : Lexeme} (hs : Spells l.category l.chars)
    (hk : l.category = .blank ∨ l.category = .comment) : scanLexemes line [l] = ⟨[], []⟩ := by
  rw [scanLexemes, tokensFrom, faultsFrom, token?_of_gap hk, fault?_of_spells hs]
  rfl

theorem scanFrom_token (hl : IsLongest k piece rest) (hd : Denotes piece kind literal) :
    scanFrom line (piece ++ rest) =
      ⟨[⟨kind, String.ofList piece, literal, line⟩], []⟩ ++
        scanFrom (line + piece.count '\n') rest := by
  obtain ⟨l, rfl, rfl, hf⟩ := hl.exists_first
  rw [scanFrom_of_first line hf, scanLexemes, tokensFrom, faultsFrom, token?_of_denotes hl.spells hd,
    fault?_of_spells hl.spells]
  rfl

theorem scanFrom_gap (hl : IsLongest k piece rest) (hk : k = .blank ∨ k = .comment) :
    scanFrom line (piece ++ rest) = scanFrom (line + piece.count '\n') rest := by
  obtain ⟨l, rfl, rfl, hf⟩ := hl.exists_first
  rw [scanFrom_of_first line hf, scanLexemes_gap line hl.spells hk]
  rfl

theorem scanFrom_blank (hc : isBlank c = true) (rest : List Char) :
    scanFrom line (c :: rest) = scanFrom (line + [c].count '\n') rest :=
  scanFrom_gap line (isLongest_blank hc rest) (Or.inl rfl)

theorem scanFrom_comment (hbody : '\n' ∉ body) (hrest : ∀ c ∈ rest.head?, c = '\n') :
    scanFrom line ('/' :: '/' :: (body ++ rest)) = scanFrom line rest := by
  have hgap := scanFrom_gap line ((isLongest_comment_iff hbody).mpr hrest) (Or.inr rfl)
  have hcount : ('/' :: '/' :: body).count '\n' = 0 := List.count_eq_zero.mpr (by simp [hbody])
  rwa [hcount] at hgap

theorem scanFrom_openString (h : '"' ∉ body) :
    scanFrom line ('"' :: body) = ⟨[⟨.endOfInput, "", none, line + body.count '\n'⟩],
      [.unterminatedString (line + body.count '\n')]⟩ := by
  have hcount : line + ('"' :: body).count '\n' = line + body.count '\n' := by simp
  rw [scanFrom, hcount, sequence_open h, scanLexemes, tokensFrom, faultsFrom, fault?, newlines,
    chars, hcount]
  rfl

theorem scanFrom_stray (hu : Unmatched (c :: rest)) (hc : c ≠ '"') :
    scanFrom line (c :: rest) = ⟨[], [.unexpectedCharacter c line]⟩ ++ scanFrom line rest := by
  let l : Lexeme := ⟨.stray, c, []⟩
  have hf : first l.head (l.tail ++ rest) = (l, rest) := first_of_stray hu hc rest
  have hcount : l.newlines = 0 :=
    List.count_eq_zero.mpr fun hm => hu.ne_newline (List.mem_singleton.mp hm).symm
  have hscan := scanFrom_of_first line hf
  rwa [hcount] at hscan

theorem scanFrom_blanks (h : Blanks piece) (rest : List Char) :
    scanFrom line (piece ++ rest) = scanFrom (line + piece.count '\n') rest := by
  induction piece generalizing line with
  | nil => rfl
  | cons c piece ih =>
    have hc := isBlank_iff.mpr (h c List.mem_cons_self)
    rw [List.cons_append, scanFrom_blank line hc, ih _ fun d hd => h d (List.mem_cons_of_mem _ hd),
      Nat.add_assoc, ← List.count_append, List.singleton_append]

end Parts

/-- A property of texts is shown for each sort of first piece, given that what is left has it. -/
theorem parts_induction {P : List Char → Prop} (nil : P [])
    (token : ∀ k piece rest kind literal, IsLongest k piece rest → Denotes piece kind literal →
      P rest → P (piece ++ rest))
    (blank : ∀ c rest, isBlank c = true → P rest → P (c :: rest))
    (comment : ∀ body rest, '\n' ∉ body → (∀ c ∈ rest.head?, c = '\n') → P rest →
      P ('/' :: '/' :: (body ++ rest)))
    (openString : ∀ body, '"' ∉ body → P ('"' :: body))
    (stray : ∀ c rest, Unmatched (c :: rest) → c ≠ '"' → P rest → P (c :: rest))
    (text : List Char) : P text := by
  induction text using sequence_induction with
  | nil => exact nil
  | cons c text ih =>
    have happ := first_append c text
    rcases first_cut c text with hl | ⟨hu, rfl, -⟩ | ⟨hu, hc, hf⟩
    · rw [← happ]
      rcases hl.spells.denotes_or_gap with ⟨kind, literal, hd⟩ | hk | hk
      · exact token _ _ _ kind literal hl hd ih
      · have hs := hl.spells
        rw [hk] at hs
        generalize (first c text).1.chars = piece at hs
        cases hs with
        | blank hb => exact blank _ _ (isBlank_iff.mpr hb) ih
      · rw [hk] at hl
        have hs := hl.spells
        generalize (first c text).1.chars = piece at hl hs
        cases hs with
        | comment hbody => exact comment _ _ hbody hl.comment_end ih
    · exact openString text hu.quote_not_mem
    · rw [hf] at ih
      exact stray c text hu hc ih

end LoxLexis
