import LoxLexis.Text.QuotedForm
import LoxLexis.Token.Basic

/-! The three layouts in which a token is printed. -/
namespace LoxLexis

/-- How tokens are printed: spelled out, in the terse form of the reference test suite, or with
every text quoted. -/
inductive Layout
  | display
  | canonical
  | debug
deriving DecidableEq, Repr

namespace Layout

def all : List Layout := [display, canonical, debug]

def name : Layout → String
  | display => "display"
  | canonical => "canonical"
  | debug => "debug"

def ofName? (name : String) : Option Layout := all.find? (·.name == name)

theorem ofName?_eq_some_iff {name : String} {l : Layout} :
    ofName? name = some l ↔ name = l.name := by
  constructor
  · intro h
    rw [ofName?] at h
    have hname := List.find?_some h
    exact (beq_iff_eq.mp hname).symm
  · rintro rfl
    cases l <;> decide

theorem name_inj_iff {a b : Layout} : a.name = b.name ↔ a = b := by
  rw [← ofName?_eq_some_iff, ofName?_eq_some_iff.mpr rfl, Option.some.injEq]

end Layout

namespace Literal

def writeQuoted : Literal → String
  | number value => "Number(" ++ String.ofList (value.write numberStyle) ++ ")"
  | string text => "String(" ++ Text.quoted text ++ ")"

end Literal

namespace Token

/-- Nothing is escaped. -/
def display (t : Token) : String :=
  "Token(type=" ++ t.kind.name ++ ", lexeme='" ++ t.lexeme ++ "', literal=" ++
    (match t.literal with
      | some value => value.write
      | none => "None") ++
    ", line=" ++ t.line.repr ++ ")"

/-- Kind, lexeme and value with blanks between. Nothing is escaped. -/
def canonical (t : Token) : String :=
  t.kind.name ++ " " ++ t.lexeme ++ " " ++
    match t.literal with
    | some value => value.write
    | none => "null"

def debug (t : Token) : String :=
  "Token \x7b token_type: " ++ t.kind.title ++ ", lexeme: " ++ Text.quoted t.lexeme ++
    ", literal: " ++
    (match t.literal with
      | some value => "Some(" ++ value.writeQuoted ++ ")"
      | none => "None") ++
    ", line: " ++ t.line.repr ++ " \x7d"

def render : Layout → Token → String
  | .display => display
  | .canonical => canonical
  | .debug => debug

end Token
end LoxLexis
