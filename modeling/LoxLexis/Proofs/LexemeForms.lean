import LoxLexis.Alphabet
import LoxLexis.Lexeme.Basic
import LoxLexis.Token.Basic
import Mathlib.Algebra.Group.Nat.Defs
import Mathlib.Data.List.Basic

/-! The forms of lexeme as sets of texts, and what each text denotes. No scan is involved. -/
namespace LoxLexis

/-- A run of at least one decimal digit. -/
def Digits (text : List Char) : Prop := text ≠ [] ∧ ∀ c ∈ text, c.isDigit

/-- A letter or underscore, then letters, digits and underscores, all ASCII. -/
inductive Word : List Char → Prop where
  | mk {c : Char} {rest : List Char} : c.isAlpha ∨ c = '_' →
      (∀ d ∈ rest, d.isAlphanum ∨ d = '_') → Word (c :: rest)

/-- The texts of each category. Open strings and stray characters have none: they are what is
left where nothing fits. -/
inductive Spells : Category → List Char → Prop where
  | mark (m : Mark) : Spells (.mark m) m.spelling
  | blank {c : Char} : c = ' ' ∨ c = '\t' ∨ c = '\r' ∨ c = '\n' → Spells .blank [c]
  | comment {body : List Char} : '\n' ∉ body → Spells .comment ('/' :: '/' :: body)
  | string {body : List Char} : '"' ∉ body → Spells .string ('"' :: (body ++ ['"']))
  | integer {whole : List Char} : Digits whole → Spells .number whole
  | decimal {whole fraction : List Char} : Digits whole → Digits fraction →
      Spells .number (whole ++ '.' :: fraction)
  | word {text : List Char} : Word text → Spells .word text

/-- What the text of a lexeme denotes: the kind of its token and the value it carries. Blanks and
comments denote nothing. -/
inductive Denotes : List Char → Kind → Option Literal → Prop where
  | mark (m : Mark) : Denotes m.spelling (.mark m) none
  | keyword (k : Keyword) : Denotes k.spelling.toList (.keyword k) none
  | identifier {text : List Char} : Word text → (∀ k : Keyword, k.spelling.toList ≠ text) →
      Denotes text .identifier none
  | string {body : List Char} : '"' ∉ body →
      Denotes ('"' :: (body ++ ['"'])) .string (some (.string (String.ofList body)))
  | integer {whole : List Char} : Digits whole →
      Denotes whole .number (some (.number
        (Binary64.nearestToRatio (Nat.ofDigitChars 10 whole 0) 1)))
  | decimal {whole fraction : List Char} : Digits whole → Digits fraction →
      Denotes (whole ++ '.' :: fraction) .number (some (.number
        (Binary64.nearestToRatio (Nat.ofDigitChars 10 (whole ++ fraction) 0)
          (10 ^ fraction.length))))

/-- A number is written in digits. -/
theorem digits_repr (n : Nat) : Digits n.repr.toList := by
  rw [Nat.repr_eq_ofList_toDigits, String.toList_ofList]
  exact ⟨Nat.toDigits_ne_nil, fun c hc => Nat.isDigit_of_mem_toDigits (by decide) (by decide) hc⟩

theorem Digits.append {first second : List Char} (h : Digits first)
    (hd : ∀ c ∈ second, c.isDigit = true) : Digits (first ++ second) := by
  refine ⟨List.append_ne_nil_of_left_ne_nil h.1 _, fun c hc => ?_⟩
  rcases List.mem_append.mp hc with hc | hc
  · exact h.2 c hc
  · exact hd c hc

theorem Word.append {first second : List Char} (h : Word first)
    (hd : ∀ c ∈ second, c.isAlphanum ∨ c = '_') : Word (first ++ second) := by
  obtain ⟨hfirst, hrest⟩ := h
  refine .mk hfirst fun c hc => ?_
  rcases List.mem_append.mp hc with hc | hc
  · exact hrest c hc
  · exact hd c hc

theorem Word.ne_nil {text : List Char} (h : Word text) : text ≠ [] := by
  cases h
  exact List.cons_ne_nil _ _

theorem Word.part {text : List Char} (h : Word text) {c : Char} (hc : c ∈ text) :
    c.isAlphanum ∨ c = '_' := by
  obtain ⟨hfirst, hrest⟩ := h
  rcases List.mem_cons.mp hc with rfl | hc
  · exact hfirst.imp (fun hl => by simp [Char.isAlphanum, hl]) id
  · exact hrest c hc

theorem Spells.ne_nil {k : Category} {text : List Char} (h : Spells k text) : text ≠ [] := by
  cases h with
  | mark m => cases m <;> exact List.cons_ne_nil _ _
  | blank | comment | string => exact List.cons_ne_nil _ _
  | integer hw => exact hw.1
  | decimal => exact List.append_ne_nil_of_right_ne_nil _ (List.cons_ne_nil _ _)
  | word hw => exact hw.ne_nil

theorem Keyword.word_spelling (k : Keyword) : Word k.spelling.toList := by
  cases k <;> exact .mk (by decide) (List.forall_iff_forall_mem.mp (by decide))

def Kind.category? : Kind → Option Category
  | .mark m => some (.mark m)
  | .identifier | .keyword _ => some .word
  | .string => some .string
  | .number => some .number
  | .endOfInput => none

theorem Denotes.spells {text : List Char} {kind : Kind} {literal : Option Literal}
    (h : Denotes text kind literal) : ∃ k, kind.category? = some k ∧ Spells k text := by
  cases h with
  | mark m => exact ⟨_, rfl, .mark m⟩
  | keyword k => exact ⟨_, rfl, .word k.word_spelling⟩
  | identifier hw => exact ⟨_, rfl, .word hw⟩
  | string hb => exact ⟨_, rfl, .string hb⟩
  | integer hw => exact ⟨_, rfl, .integer hw⟩
  | decimal hw hf => exact ⟨_, rfl, .decimal hw hf⟩

theorem Denotes.kind_ne_endOfInput {text : List Char} {kind : Kind} {literal : Option Literal}
    (h : Denotes text kind literal) : kind ≠ .endOfInput := by
  rintro rfl
  cases h

end LoxLexis
