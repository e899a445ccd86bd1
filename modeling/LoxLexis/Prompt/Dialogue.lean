import LoxLexis.Outcome
import LoxLexis.Prompt.Response
import LoxLexis.Text.Utf8Lines

/-!
The dialogue at the prompt. Lines are collected until they make a complete piece of input, which is
responded to and forgotten.
-/
namespace LoxLexis

/-- The input that awaits more lines, and all that has been printed. -/
structure Dialogue where
  pending : String := ""
  output : Output := {}
deriving DecidableEq, Repr

namespace Dialogue

/-- Diagnostics go to the error output, and each token has a line. -/
def answer (d : Dialogue) (r : Response) : Dialogue :=
  let reported := match r.diagnostics with
    | some text => (d.output.printError text).printError "\n"
    | none => d.output
  { pending := "", output := reported.printLines r.tokens }

/-- Shows that a line is awaited, and whether it continues others. -/
def showMarker (d : Dialogue) : Dialogue :=
  { d with output := d.output.print (if d.pending.isEmpty then "> " else "| ") }

def hear (layout : Layout) (d : Dialogue) (line : String) : Dialogue :=
  let input := d.pending ++ line
  match respond layout input true with
  | some r => answer { d with pending := "" } r
  | none => { d with pending := input }

/-- At the end, input that still awaits more is responded to as it stands, on a new line. -/
def conclude (layout : Layout) (d : Dialogue) : Dialogue :=
  if d.pending.isEmpty then d
  else
    match respond layout d.pending false with
    | some r => answer { d with output := d.output.print "\n" } r
    | none => d

/-- Reads lines up to the end, or up to the first that is no text. -/
def run (layout : Layout) (d : Dialogue) : List (Option String) → Outcome
  | [] => Outcome.ofEnding (d.showMarker.conclude layout).output none
  | none :: _ => Outcome.ofEnding d.showMarker.output (some (.unreadable .invalidUtf8))
  | some line :: rest => (d.showMarker.hear layout line).run layout rest

end Dialogue

def runPrompt (layout : Layout) (stdin : List UInt8) : Outcome :=
  ({} : Dialogue).run layout ((Text.splitLines stdin).map Text.decodeUtf8?)

end LoxLexis
