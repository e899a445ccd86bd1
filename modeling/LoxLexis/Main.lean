import LoxLexis.Program

/-! The program at a terminal: reads files, lines and the environment, and writes its output. -/
namespace LoxLexis.Main

def emit (o : Output) : IO Unit := do
  let stderr ← IO.getStderr
  stderr.putStr o.stderr
  let stdout ← IO.getStdout
  stdout.putStr o.stdout
  stdout.flush

/-- Why the system could not read a file. Of a type that does not fit, a directory in place of a
file has the number 21, and an argument that is not valid is a name too long. -/
def readErrorOf : IO.Error → ReadError
  | .noFileOrDirectory _ _ _ => .missing
  | .inappropriateType _ 21 _ => .isDirectory
  | .inappropriateType _ _ _ => .notDirectory
  | .invalidArgument _ _ _ => .nameTooLong
  | e => .other (toString e)

def readFile (path : String) : IO (Except ReadError (List UInt8)) := do
  try
    let bytes ← IO.FS.readBinFile path
    return .ok bytes.toList
  catch e => return .error (readErrorOf e)

/-- The rest of a line of standard input, with the newline that ends it. -/
partial def readLine (input : IO.FS.Stream) (begun : List UInt8) : IO (List UInt8) := do
  match (← input.read 1).toList with
  | [] => return begun.reverse
  | byte :: _ =>
    if byte = Text.newlineByte then return (byte :: begun).reverse
    else readLine input (byte :: begun)

/-- Holds a dialogue, and tells what ended it if it was a failure. -/
partial def converse (layout : Layout) (input : IO.FS.Stream) (d : Dialogue) :
    IO (Option Failure) := do
  emit d.showMarker.output
  match ← readLine input [] with
  | [] =>
    emit (Dialogue.conclude layout { d with output := {} }).output
    return none
  | bytes =>
    match Text.decodeUtf8? bytes with
    | none => return some (.unreadable .invalidUtf8)
    | some line =>
      let d := Dialogue.hear layout { d with output := {} } line
      emit d.output
      converse layout input { d with output := {} }

def perform : Task → IO Outcome
  | .showPage text => return Outcome.ofEnding (({} : Output).print text) none
  | .refuse complaint => return Outcome.ofEnding {} (some (.usage complaint))
  | .scanFile path layout => return runFile layout (← readFile path)
  | .holdDialogue layout => return Outcome.ofEnding {} (← converse layout (← IO.getStdin) {})

end LoxLexis.Main

def main (arguments : List String) : IO UInt32 := do
  let environment ← IO.getEnv "LOX_TOKEN_FORMAT"
  let outcome ← LoxLexis.Main.perform (LoxLexis.Task.ofArguments environment arguments)
  LoxLexis.Main.emit outcome.output
  return UInt32.ofNat outcome.code
