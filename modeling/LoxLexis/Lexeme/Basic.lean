import LoxLexis.Token.Kind

/-! Lexemes: the pieces that source text falls into. -/
namespace LoxLexis

/-- What a lexeme is, before its characters are looked at. The last two are faults. -/
inductive Category
  | mark (m : Mark)
  | blank
  | comment
  | string
  | number
  | word
  | openString
  | stray
deriving DecidableEq, Repr

/-- A category and the characters that make the lexeme up, of which there is at least one. -/
@[ext] structure Lexeme where
  category : Category
  head : Char
  tail : List Char
deriving DecidableEq, Repr

namespace Lexeme

def chars (l : Lexeme) : List Char := l.head :: l.tail

def text (l : Lexeme) : String := String.ofList l.chars

def newlines (l : Lexeme) : Nat := l.chars.count '\n'

theorem chars_ne_nil (l : Lexeme) : l.chars ≠ [] := List.cons_ne_nil _ _

end Lexeme
end LoxLexis
