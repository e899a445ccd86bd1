import LoxLexis.CommandLine.Reading
import LoxLexis.FileMode
import LoxLexis.Files.FileTree
import LoxLexis.Prompt.Dialogue

/-! The program as a whole. -/
namespace LoxLexis

/-- What a command line comes down to. -/
inductive Task
  | showPage (text : String)
  | refuse (complaint : String)
  | scanFile (path : String) (layout : Layout)
  | holdDialogue (layout : Layout)
deriving DecidableEq, Repr

/-- A source file is scanned. Without one, or where the prompt is asked for, there is a dialogue. -/
def Task.ofInstruction (i : CommandLine.Instruction) : Task :=
  match i.command, i.sourceFile with
  | .repl, _ | _, none => .holdDialogue i.layout
  | _, some path => .scanFile path i.layout

/-- What to do for the given arguments, where the environment may set a layout. -/
def Task.ofArguments (environment : Option String) (arguments : List String) : Task :=
  match CommandLine.read environment arguments with
  | .ok i => .ofInstruction i
  | .error (.page text) => .showPage text
  | .error (.misuse m) => .refuse m.text

structure Invocation where
  arguments : List String := []
  environment : Option String := none
  files : FileTree := {}
  stdin : List UInt8 := []
deriving DecidableEq, Repr

def Invocation.run (i : Invocation) : Outcome :=
  match Task.ofArguments i.environment i.arguments with
  | .showPage text => Outcome.ofEnding (({} : Output).print text) none
  | .refuse complaint => Outcome.ofEnding {} (some (.usage complaint))
  | .scanFile path layout => runFile layout (i.files.readBytes path)
  | .holdDialogue layout => runPrompt layout i.stdin

end LoxLexis
