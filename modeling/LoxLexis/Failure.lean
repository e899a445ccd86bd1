import LoxLexis.Fault
import LoxLexis.Text.TrailingCharacters

/-! The ways a run can fail, what is said about each, and the code that the run ends with. -/
namespace LoxLexis

inductive ReadError
  | missing
  | isDirectory
  | notDirectory
  | nameTooLong
  | invalidUtf8
  | other (text : String)
deriving DecidableEq, Repr

namespace ReadError

def message : ReadError → String
  | missing => "No such file or directory (os error 2)"
  | isDirectory => "Is a directory (os error 21)"
  | notDirectory => "Not a directory (os error 20)"
  | nameTooLong => "File name too long (os error 36)"
  | invalidUtf8 => "stream did not contain valid UTF-8"
  | other text => text

end ReadError

inductive Failure
  | usage (text : String)
  | unreadable (cause : ReadError)
  | faulty (faults : List Fault)
deriving DecidableEq, Repr

namespace Failure

/-- The message, without white space at the end of a usage text. -/
def message : Failure → String
  | usage text => String.ofList (Text.dropTrailing Text.isWhiteSpace text.toList)
  | unreadable cause => "Error reading source file: " ++ cause.message
  | faulty faults => Fault.reports faults

/-- Wrong usage, wrong data and missing input have a code each. -/
def exitCode : Failure → Nat
  | usage _ => 64
  | faulty _ => 65
  | unreadable _ => 66

def isUnterminated : Failure → Bool
  | faulty faults => Fault.onlyUnterminated faults
  | usage _ | unreadable _ => false

end Failure
end LoxLexis
