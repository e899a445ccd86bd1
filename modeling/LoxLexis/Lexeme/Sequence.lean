import LoxLexis.Lexeme.LongestMatch

/-! A text as the sequence of its lexemes. -/
namespace LoxLexis.Lexeme

/-- Appends the lexemes of a text to those found before it. -/
def collect (found : Array Lexeme) : List Char → Array Lexeme
  | [] => found
  | c :: text =>
    let cut := first c text
    collect (found.push cut.1) cut.2
termination_by text => text.length
decreasing_by exact Nat.lt_succ_of_le (first_rest_length_le c text)

/-- The lexemes of a text, each the longest match where the one before it ends. -/
def sequence (text : List Char) : List Lexeme := (collect #[] text).toList

theorem collect_eq_append (found : Array Lexeme) (text : List Char) :
    collect found text = found ++ collect #[] text := by
  induction h : text.length using Nat.strongRecOn generalizing found text with
  | _ n ih =>
    cases text with
    | nil => simp [collect]
    | cons c text =>
      have shorter : (first c text).2.length < n := by
        have := first_rest_length_le c text
        simp only [List.length_cons] at h
        omega
      rw [collect, ih _ shorter (found.push _) _ rfl, collect,
        ih _ shorter (Array.push #[] _) _ rfl]
      simp

theorem sequence_nil : sequence [] = [] := by simp [sequence, collect]

theorem sequence_cons (c : Char) (text : List Char) :
    sequence (c :: text) = (first c text).1 :: sequence (first c text).2 := by
  rw [sequence, collect, collect_eq_append]
  simp [sequence]

/-- The lexemes put together again are the text. -/
theorem flatMap_chars_sequence (text : List Char) : (sequence text).flatMap chars = text := by
  induction h : text.length using Nat.strongRecOn generalizing text with
  | _ n ih =>
    cases text with
    | nil => simp [sequence_nil]
    | cons c text =>
      have shorter : (first c text).2.length < n := by
        have := first_rest_length_le c text
        simp only [List.length_cons] at h
        omega
      rw [sequence_cons, List.flatMap_cons, ih _ shorter _ rfl, first_append]

end LoxLexis.Lexeme
