import LoxLexis.Proofs.ScanParts

/-! Lines may end in a newline alone or in a carriage return and a newline. -/
namespace LoxLexis
open Alphabet

def crlfChars (text : List Char) : List Char :=
  text.flatMap fun c => if c = '\n' then ['\r', '\n'] else [c]

/-- The text with a carriage return put before each newline. -/
def crlf (text : String) : String := String.ofList (crlfChars text.toList)

def Literal.withCrlf : Literal → Literal
  | .number value => .number value
  | .string text => .string (crlf text)

/-- A token of the same kind and line whose texts have carriage returns put in. -/
def Token.withCrlf (t : Token) : Token :=
  { t with lexeme := crlf t.lexeme, literal := t.literal.map Literal.withCrlf }

def Scan.withCrlf (s : Scan) : Scan := ⟨s.tokens.map Token.withCrlf, s.faults⟩

section
variable {text : List Char}

@[simp] theorem crlfChars_nil : crlfChars [] = [] := rfl

private theorem crlfChars_newline (rest : List Char) :
    crlfChars ('\n' :: rest) = '\r' :: '\n' :: crlfChars rest := rfl

private theorem crlfChars_cons {c : Char} (h : c ≠ '\n') (rest : List Char) :
    crlfChars (c :: rest) = c :: crlfChars rest := by
  simp [crlfChars, h]

private theorem crlf_ofList (text : List Char) :
    crlf (String.ofList text) = String.ofList (crlfChars text) := by
  rw [crlf, String.toList_ofList]

private theorem crlfChars_append (first second : List Char) :
    crlfChars (first ++ second) = crlfChars first ++ crlfChars second :=
  List.flatMap_append

private theorem crlfChars_of_not_mem (h : '\n' ∉ text) : crlfChars text = text := by
  induction text with
  | nil => rfl
  | cons c rest ih =>
    rw [List.mem_cons, not_or] at h
    rw [crlfChars_cons (Ne.symm h.1), ih h.2]

private theorem count_newline_crlfChars (text : List Char) :
    (crlfChars text).count '\n' = text.count '\n' := by
  induction text with
  | nil => rfl
  | cons c rest ih =>
    by_cases hc : c = '\n'
    · rw [hc, crlfChars_newline]
      simp [ih]
    · rw [crlfChars_cons hc, List.count_cons, List.count_cons, ih]

private theorem quote_not_mem_crlfChars (h : '"' ∉ text) : '"' ∉ crlfChars text := by
  intro hm
  obtain ⟨c, hc, hm⟩ := List.mem_flatMap.mp hm
  split at hm
  · exact absurd hm (by decide)
  · obtain rfl := List.mem_singleton.mp hm
    exact h hc

private theorem unnoticed_crlfChars : Unnoticed crlfChars where
  head text c hc := by
    cases text with
    | nil => cases hc
    | cons d rest =>
      by_cases hd : d = '\n'
      · rw [hd, crlfChars_newline] at hc
        obtain rfl := Option.some.inj hc
        exact Or.inl rfl
      · rw [crlfChars_cons hd] at hc
        exact Or.inr hc
  point rest := crlfChars_cons (by decide) rest

end

section
variable {k : Category} {piece rest : List Char} {kind : Kind} {literal : Option Literal}

private theorem Digits.newline_not_mem (h : Digits piece) : '\n' ∉ piece := by
  intro hm
  exact absurd (h.2 _ hm) (by decide)

private theorem Word.newline_not_mem (h : Word piece) : '\n' ∉ piece := by
  intro hm
  exact absurd (h.part hm) (by decide)

private theorem Denotes.string_or_one_line (h : Denotes piece kind literal) :
    (∃ body, '"' ∉ body ∧ piece = '"' :: (body ++ ['"']) ∧ kind = .string ∧
      literal = some (.string (String.ofList body))) ∨
    '\n' ∉ piece ∧ literal.map Literal.withCrlf = literal := by
  cases h with
  | mark m => exact Or.inr ⟨by cases m <;> decide, rfl⟩
  | keyword k => exact Or.inr ⟨k.word_spelling.newline_not_mem, rfl⟩
  | identifier hw => exact Or.inr ⟨hw.newline_not_mem, rfl⟩
  | string hbody => exact Or.inl ⟨_, hbody, rfl, rfl, rfl⟩
  | integer hw => exact Or.inr ⟨hw.newline_not_mem, rfl⟩
  | decimal hw hf =>
    refine Or.inr ⟨fun hm => ?_, rfl⟩
    rcases List.mem_append.mp hm with hm | hm
    · exact hw.newline_not_mem hm
    · exact hf.newline_not_mem ((List.mem_cons.mp hm).resolve_left (by decide))

private theorem crlfChars_quoted (body : List Char) :
    crlfChars ('"' :: (body ++ ['"'])) = '"' :: (crlfChars body ++ ['"']) := by
  rw [crlfChars_cons (by decide), crlfChars_append]
  rfl

private theorem Denotes.withCrlf (h : Denotes piece kind literal) :
    Denotes (crlfChars piece) kind (literal.map Literal.withCrlf) := by
  rcases h.string_or_one_line with ⟨body, hbody, rfl, rfl, rfl⟩ | ⟨hpiece, hliteral⟩
  · rw [crlfChars_quoted, Option.map_some, Literal.withCrlf, crlf_ofList]
    exact .string (quote_not_mem_crlfChars hbody)
  · rwa [crlfChars_of_not_mem hpiece, hliteral]

private theorem Denotes.withCrlf_eq (h : Denotes piece kind literal)
    (hone : kind ≠ .string ∨ '\n' ∉ piece) :
    crlfChars piece = piece ∧ literal.map Literal.withCrlf = literal := by
  rcases h.string_or_one_line with ⟨body, -, rfl, rfl, rfl⟩ | ⟨hpiece, hliteral⟩
  · have hpiece := hone.resolve_left fun hk => hk rfl
    have hbody : '\n' ∉ body := by simpa using hpiece
    rw [Option.map_some, Literal.withCrlf, crlf_ofList, crlfChars_of_not_mem hbody]
    exact ⟨crlfChars_of_not_mem hpiece, rfl⟩
  · exact ⟨crlfChars_of_not_mem hpiece, hliteral⟩

private theorem IsLongest.withCrlf (h : IsLongest k piece rest) (hd : Denotes piece kind literal) :
    IsLongest k (crlfChars piece) (crlfChars rest) := by
  rcases hd.string_or_one_line with ⟨body, hbody, rfl, -, -⟩ | ⟨hpiece, -⟩
  · obtain rfl := h.spells.unique (.string hbody)
    rw [crlfChars_quoted]
    exact isLongest_string (quote_not_mem_crlfChars hbody) _
  · rw [crlfChars_of_not_mem hpiece]
    exact unnoticed_crlfChars.isLongest h (hd.ne_comment h.spells)

end

private theorem scanFrom_crlfChars (line : Nat) (text : List Char) :
    scanFrom line (crlfChars text) = (scanFrom line text).withCrlf := by
  induction text using parts_induction generalizing line with
  | nil =>
    rw [crlfChars_nil, scanFrom_nil]
    rfl
  | token k piece rest kind literal hl hd ih =>
    rw [crlfChars_append, scanFrom_token line (hl.withCrlf hd) hd.withCrlf, count_newline_crlfChars,
      ih, ← crlf_ofList, scanFrom_token line hl hd]
    rfl
  | blank c rest hc ih =>
    by_cases hn : c = '\n'
    · subst hn
      rw [crlfChars_newline, scanFrom_blank line rfl, scanFrom_blank _ rfl, scanFrom_blank line rfl]
      exact ih _
    · rw [crlfChars_cons hn, scanFrom_blank line hc, scanFrom_blank line hc, ih]
  | comment body rest hbody hrest ih =>
    have htext : crlfChars ('/' :: '/' :: (body ++ rest)) =
        '/' :: '/' :: (body ++ crlfChars rest) := by
      rw [crlfChars_cons (by decide), crlfChars_cons (by decide), crlfChars_append,
        crlfChars_of_not_mem hbody]
    rw [htext, scanFrom_comment line hbody hrest, ← ih]
    cases rest with
    | nil => exact scanFrom_comment line hbody hrest
    | cons c rest =>
      -- The comment takes in the carriage return that is put before the newline.
      obtain rfl : c = '\n' := hrest c rfl
      have hlonger : '\n' ∉ body ++ ['\r'] := by simp [hbody]
      rw [crlfChars_newline, List.append_cons, scanFrom_comment line hlonger (by simp),
        scanFrom_blank line rfl ('\n' :: crlfChars rest)]
      rfl
  | openString body hbody =>
    rw [crlfChars_cons (by decide), scanFrom_openString line (quote_not_mem_crlfChars hbody),
      count_newline_crlfChars, scanFrom_openString line hbody]
    rfl
  | stray c rest hu hc ih =>
    rw [crlfChars_cons hu.ne_newline, scanFrom_stray line (hu.of_ne_quote hc _) hc, ih,
      scanFrom_stray line hu hc]
    rfl

/-- A source whose lines end in a carriage return and a newline has the tokens of the source whose
lines end in a newline, of the same kinds and on the same lines, and the very same faults. Only
strings of several lines differ, by the carriage returns in them. -/
theorem scan_crlf (source : String) :
    scan (crlf source) = ⟨(scan source).tokens.map Token.withCrlf, (scan source).faults⟩ ∧
      ∀ t ∈ (scan source).tokens, t.kind ≠ .string ∨ '\n' ∉ t.lexeme.toList → t.withCrlf = t := by
  constructor
  · rw [crlf, scan_ofList, scanFrom_crlfChars, ← scan_eq_scanFrom]
    rfl
  · intro t ht hone
    obtain ⟨tokens, htokens, hm⟩ := munch_scan source
    rw [htokens] at ht
    rcases List.mem_append.mp ht with ht | ht
    · obtain ⟨hlexeme, hliteral⟩ := (hm.wellFormed t ht).withCrlf_eq hone
      rw [Token.withCrlf, crlf, hlexeme, hliteral, String.ofList_toList]
    · obtain rfl := List.mem_singleton.mp ht
      rfl

end LoxLexis
