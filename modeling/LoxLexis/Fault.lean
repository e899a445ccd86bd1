/-! What can be wrong with source text, and how it is reported. -/
namespace LoxLexis

/-- A fault and the line it is reported on. For a string that is never closed that is the line on
which the text ends. -/
inductive Fault
  | unexpectedCharacter (character : Char) (line : Nat)
  | unterminatedString (line : Nat)
deriving DecidableEq, Repr

namespace Fault

def line : Fault → Nat
  | unexpectedCharacter _ line => line
  | unterminatedString line => line

def message : Fault → String
  | unexpectedCharacter _ _ => "Unexpected character."
  | unterminatedString _ => "Unterminated string."

def isUnterminated : Fault → Bool
  | unexpectedCharacter _ _ => false
  | unterminatedString _ => true

def report (f : Fault) : String := "[line " ++ f.line.repr ++ "] Error: " ++ f.message

/-- All reports, one a line, without a newline at the end. -/
def reports (faults : List Fault) : String := "\n".intercalate (faults.map report)

/-- Whether an unterminated string is all that is wrong. -/
def onlyUnterminated : List Fault → Bool
  | [f] => f.isUnterminated
  | _ => false

end Fault
end LoxLexis
