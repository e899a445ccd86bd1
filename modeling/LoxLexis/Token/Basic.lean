import LoxLexis.Binary64.DecimalNotation
import LoxLexis.Token.Kind

/-! Tokens and the values they carry. -/
namespace LoxLexis

inductive Literal
  | number (value : Binary64)
  | string (text : String)
deriving DecidableEq, Repr

/-- A classified lexeme. It keeps its text and the line it begins on, counted from one. -/
structure Token where
  kind : Kind
  lexeme : String
  literal : Option Literal
  line : Nat
deriving DecidableEq, Repr

namespace Literal

/-- Numbers from a ten-thousandth up to ten to the sixteenth are written positionally. -/
def numberStyle : DecimalStyle where
  positionalFrom := Binary64.nearestToRatio 1 10000
  positionalBelow := Binary64.nearestToRatio (Nat.pow 10 16) 1
  exponentMark := 'e'
  infinity := ['i', 'n', 'f']
  notANumber := ['N', 'a', 'N']

/-- A string is written as it is, without quotes. -/
def write : Literal → String
  | number value => String.ofList (value.write numberStyle)
  | string text => text

def equal : Literal → Literal → Bool
  | number x, number y => x.equal y
  | string x, string y => x == y
  | _, _ => false

end Literal

namespace Token

def equal (a b : Token) : Bool :=
  a.kind == b.kind && a.lexeme == b.lexeme && a.line == b.line &&
    match a.literal, b.literal with
    | none, none => true
    | some x, some y => x.equal y
    | _, _ => false

end Token
end LoxLexis
