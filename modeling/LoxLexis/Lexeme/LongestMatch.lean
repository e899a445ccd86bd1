import LoxLexis.Alphabet
import LoxLexis.Lexeme.Basic

/-! The first lexeme of a text: the longest piece at its beginning that is one. -/
namespace LoxLexis.Lexeme
open Alphabet

/-- Splits off a fraction: a point and the digits after it, of which there must be one. -/
def splitFraction : List Char → List Char × List Char
  | '.' :: digit :: rest =>
    if digit.isDigit then ('.' :: digit :: rest.takeWhile Char.isDigit, rest.dropWhile Char.isDigit)
    else ([], '.' :: digit :: rest)
  | text => ([], text)

def firstNumber (digit : Char) (text : List Char) : Lexeme × List Char :=
  let fraction := splitFraction (text.dropWhile Char.isDigit)
  (⟨.number, digit, text.takeWhile Char.isDigit ++ fraction.1⟩, fraction.2)

/-- The lexeme that begins with a quote. Without a second quote it takes all there is. -/
def firstString (quote : Char) (text : List Char) : Lexeme × List Char :=
  match text.dropWhile (· != '"') with
  | [] => (⟨.openString, quote, text⟩, [])
  | closing :: rest => (⟨.string, quote, text.takeWhile (· != '"') ++ [closing]⟩, rest)

/-- The lexeme that begins with a character that is a mark by itself. Two slashes begin a comment,
which leaves the newline that ends it. -/
def firstMark (m : Mark) (c : Char) : List Char → Lexeme × List Char
  | [] => (⟨.mark m, c, []⟩, [])
  | next :: rest =>
    if m = .slash ∧ next = '/' then
      (⟨.comment, c, next :: rest.takeWhile (· != '\n')⟩, rest.dropWhile (· != '\n'))
    else if next = '=' then
      match m.withEqual? with
      | some wider => (⟨.mark wider, c, [next]⟩, rest)
      | none => (⟨.mark m, c, []⟩, next :: rest)
    else (⟨.mark m, c, []⟩, next :: rest)

/-- The first lexeme of a text that begins with the given character, and what follows it. -/
def first (c : Char) (text : List Char) : Lexeme × List Char :=
  if isBlank c then (⟨.blank, c, []⟩, text)
  else if c == '"' then firstString c text
  else if c.isDigit then firstNumber c text
  else if isWordStart c then (⟨.word, c, text.takeWhile isWordPart⟩, text.dropWhile isWordPart)
  else match Mark.ofChar? c with
    | some m => firstMark m c text
    | none => (⟨.stray, c, []⟩, text)

theorem splitFraction_append (text : List Char) :
    (splitFraction text).1 ++ (splitFraction text).2 = text := by
  fun_cases splitFraction text <;> simp [*]

theorem firstNumber_append (digit : Char) (text : List Char) :
    (firstNumber digit text).1.chars ++ (firstNumber digit text).2 = digit :: text := by
  simp [firstNumber, chars, splitFraction_append]

theorem firstString_append (quote : Char) (text : List Char) :
    (firstString quote text).1.chars ++ (firstString quote text).2 = quote :: text := by
  have parts := List.takeWhile_append_dropWhile (p := (· != '"')) (l := text)
  unfold firstString
  split <;> simp_all [chars]

theorem firstMark_append (m : Mark) (c : Char) (text : List Char) :
    (firstMark m c text).1.chars ++ (firstMark m c text).2 = c :: text := by
  fun_cases firstMark m c text <;> simp_all [chars]

/-- Nothing is lost and nothing is added. -/
theorem first_append (c : Char) (text : List Char) :
    (first c text).1.chars ++ (first c text).2 = c :: text := by
  unfold first
  split
  · rfl
  split
  · exact firstString_append c text
  split
  · exact firstNumber_append c text
  split
  · simp [chars]
  split
  · exact firstMark_append _ c text
  · rfl

theorem first_rest_length_le (c : Char) (text : List Char) :
    (first c text).2.length ≤ text.length := by
  have total := congrArg List.length (first_append c text)
  simp only [chars, List.length_append, List.length_cons] at total
  omega

end LoxLexis.Lexeme
