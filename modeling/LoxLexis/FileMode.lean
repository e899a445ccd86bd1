import LoxLexis.Outcome
import LoxLexis.Scan.Basic
import LoxLexis.Text.Utf8Lines
import LoxLexis.Token.Layout

/-! Scanning a whole file. -/
namespace LoxLexis

/-- Prints every token, whatever is wrong with the text, and then fails if anything is. -/
def runText (layout : Layout) (source : String) : Outcome :=
  let outcome := scan source
  Outcome.ofEnding (({} : Output).printLines (outcome.tokens.map (Token.render layout)))
    (if outcome.faults.isEmpty then none else some (.faulty outcome.faults))

/-- Nothing is printed of a file that cannot be read or is no text. -/
def runFile (layout : Layout) : Except ReadError (List UInt8) → Outcome
  | .error cause => Outcome.ofEnding {} (some (.unreadable cause))
  | .ok bytes =>
    match Text.decodeUtf8? bytes with
    | some source => runText layout source
    | none => Outcome.ofEnding {} (some (.unreadable .invalidUtf8))

end LoxLexis
