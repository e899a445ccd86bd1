import LoxLexis.Failure
import LoxLexis.Scan.Basic
import LoxLexis.Token.Layout

/-! What the prompt makes of the input it has collected. -/
namespace LoxLexis

/-- The tokens of a complete piece of input, printed, and what is wrong with it, if anything is. -/
structure Response where
  tokens : List String
  diagnostics : Option String
deriving DecidableEq, Repr

def withoutTerminators (input : String) : String :=
  String.ofList (Text.dropTrailing Text.isLineTerminator input.toList)

/-- Responds to input, or asks for more. More can be asked for only where more can come, and only
an unterminated string that is all that is wrong is worth asking for it. -/
def respond (layout : Layout) (input : String) (moreInput : Bool) : Option Response :=
  let outcome := scan (withoutTerminators input)
  if moreInput && Fault.onlyUnterminated outcome.faults then none
  else some
    { tokens := outcome.tokens.map (Token.render layout)
      diagnostics :=
        if outcome.faults.isEmpty then none else some (Failure.faulty outcome.faults).message }

end LoxLexis
