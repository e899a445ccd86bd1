import LoxLexis.Proofs.ScanParts

/-! Comments and stray characters leave no trace in the tokens. -/
namespace LoxLexis
open Alphabet Lexeme

/-- A comment leaves nothing, a stray character a space, and every other lexeme its text. -/
def Lexeme.plain (l : Lexeme) : List Char :=
  match l.category with
  | .comment => []
  | .stray => [' ']
  | _ => l.chars

def plainText (text : List Char) : List Char := (sequence text).flatMap Lexeme.plain

/-- The source without its comments, with a space for each stray character. -/
def plain (source : String) : String := String.ofList (plainText source.toList)

section
variable {k : Category} {piece rest body : List Char} {c : Char}

private theorem plainText_of_first {l : Lexeme} (h : first l.head (l.tail ++ rest) = (l, rest)) :
    plainText (l.chars ++ rest) = l.plain ++ plainText rest := by
  rw [plainText, chars, List.cons_append, sequence_cons, h, List.flatMap_cons]
  rfl

private theorem plain_of_spells {l : Lexeme} (h : Spells l.category l.chars)
    (hk : l.category ≠ .comment) :
    l.plain = l.chars := by
  unfold Lexeme.plain
  generalize l.chars = piece at *
  generalize l.category = k at *
  cases h with
  | comment => exact absurd rfl hk
  | mark | blank | string | integer | decimal | word => rfl

private theorem plainText_of_isLongest (hl : IsLongest k piece rest) (hk : k ≠ .comment) :
    plainText (piece ++ rest) = piece ++ plainText rest := by
  obtain ⟨l, rfl, rfl, hf⟩ := hl.exists_first
  rw [plainText_of_first hf, plain_of_spells hl.spells hk]

private theorem plainText_blank (hc : isBlank c = true) (rest : List Char) :
    plainText (c :: rest) = c :: plainText rest :=
  plainText_of_isLongest (isLongest_blank hc rest) (by decide)

private theorem plainText_comment (hbody : '\n' ∉ body) (hrest : ∀ c ∈ rest.head?, c = '\n') :
    plainText ('/' :: '/' :: (body ++ rest)) = plainText rest := by
  obtain ⟨l, hk, hpiece, hf⟩ := ((isLongest_comment_iff hbody).mpr hrest).exists_first
  have hplain := plainText_of_first hf
  rwa [hpiece, Lexeme.plain, hk] at hplain

private theorem plainText_openString (h : '"' ∉ body) : plainText ('"' :: body) = '"' :: body := by
  rw [plainText, sequence_open h]
  exact List.flatMap_singleton _ _

private theorem plainText_stray (hu : Unmatched (c :: rest)) (hc : c ≠ '"') :
    plainText (c :: rest) = ' ' :: plainText rest := by
  let l : Lexeme := ⟨.stray, c, []⟩
  have hf : first l.head (l.tail ++ rest) = (l, rest) := first_of_stray hu hc rest
  exact plainText_of_first hf

end

private theorem head_plainText (text : List Char) :
    ∀ c ∈ (plainText text).head?, isBlank c = true ∨ c ∈ text.head? := by
  induction text using parts_induction with
  | nil => simp [plainText, sequence_nil]
  | token k piece rest kind literal hl hd =>
    have hplain := plainText_of_isLongest hl (hd.ne_comment hl.spells)
    obtain ⟨c, w, rfl⟩ := List.exists_cons_of_ne_nil hl.spells.ne_nil
    rw [hplain]
    exact fun d hd => Or.inr hd
  | blank c rest hc =>
    rw [plainText_blank hc]
    exact fun d hd => Or.inr hd
  | comment body rest hbody hrest ih =>
    rw [plainText_comment hbody hrest]
    refine fun d hd => Or.inl ((ih d hd).elim id fun hd => ?_)
    rw [hrest d hd]
    rfl
  | openString body hbody =>
    rw [plainText_openString hbody]
    exact fun d hd => Or.inr hd
  | stray c rest hu hc =>
    rw [plainText_stray hu hc]
    exact fun d hd => Or.inl (Option.some.inj hd ▸ rfl)

private theorem unnoticed_plainText : Unnoticed plainText where
  head := head_plainText
  point rest :=
    have hpoint : IsLongest (.mark .dot) ['.'] rest := (isLongest_mark_iff .dot).mpr ⟨nofun, nofun⟩
    plainText_of_isLongest hpoint (by decide)

private theorem scanFrom_plainText (line : Nat) (text : List Char) :
    scanFrom line (plainText text) = ⟨(scanFrom line text).tokens,
      (scanFrom line text).faults.filter Fault.isUnterminated⟩ := by
  induction text using parts_induction generalizing line with
  | nil =>
    rw [plainText, sequence_nil, List.flatMap_nil, scanFrom_nil]
    rfl
  | token k piece rest kind literal hl hd ih =>
    have hk := hd.ne_comment hl.spells
    have hplain := unnoticed_plainText.isLongest hl hk
    rw [plainText_of_isLongest hl hk, scanFrom_token line hplain hd, scanFrom_token line hl hd, ih]
    rfl
  | blank c rest hc ih =>
    rw [plainText_blank hc, scanFrom_blank line hc, scanFrom_blank line hc, ih]
  | comment body rest hbody hrest ih =>
    rw [plainText_comment hbody hrest, scanFrom_comment line hbody hrest, ih]
  | openString body hbody =>
    rw [plainText_openString hbody, scanFrom_openString line hbody]
    rfl
  | stray c rest hu hc ih =>
    rw [plainText_stray hu hc, scanFrom_blank line rfl, scanFrom_stray line hu hc]
    exact ih line

/-- A comment is read as if it were not there and a stray character as if it were a space: all
tokens are the same, on the same lines, and an open string is all that is reported. -/
theorem scan_plain (source : String) :
    scan (plain source) =
      ⟨(scan source).tokens, (scan source).faults.filter Fault.isUnterminated⟩ := by
  rw [plain, scan_ofList, scanFrom_plainText, ← scan_eq_scanFrom]

/-- What stood apart does not come together. -/
example : plain "1@.5//x\n/@/" = "1 .5\n/ /" := by decide +kernel

end LoxLexis
