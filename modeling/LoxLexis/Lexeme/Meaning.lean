import LoxLexis.Fault
import LoxLexis.Lexeme.Basic
import LoxLexis.Token.Basic

/-! What a lexeme stands for: a token, a fault, or nothing. -/
namespace LoxLexis.Lexeme

/-- The value of digits, or of digits with a point among them, correctly rounded. -/
def numeralValue (numeral : List Char) : Binary64 :=
  let whole := numeral.takeWhile Char.isDigit
  let fraction := (numeral.dropWhile Char.isDigit).drop 1
  Binary64.nearestToRatio (Nat.ofDigitChars 10 (whole ++ fraction) 0)
    (Nat.pow 10 fraction.length)

def kind? (l : Lexeme) : Option Kind :=
  match l.category with
  | .mark m => some (.mark m)
  | .string => some .string
  | .number => some .number
  | .word =>
    match Keyword.ofSpelling? l.text with
    | some k => some (.keyword k)
    | none => some .identifier
  | .blank | .comment | .openString | .stray => none

/-- Numbers carry their value, and strings their text without the quotes. -/
def literal? (l : Lexeme) : Option Literal :=
  match l.category with
  | .string => some (.string (String.ofList l.tail.dropLast))
  | .number => some (.number (numeralValue l.chars))
  | _ => none

def token? (l : Lexeme) (line : Nat) : Option Token :=
  l.kind?.map fun kind => ⟨kind, l.text, l.literal?, line⟩

def fault? (l : Lexeme) (line : Nat) : Option Fault :=
  match l.category with
  | .stray => some (.unexpectedCharacter l.head line)
  | .openString => some (.unterminatedString (line + l.newlines))
  | _ => none

end LoxLexis.Lexeme
