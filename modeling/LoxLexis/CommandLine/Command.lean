import LoxLexis.Token.Layout

/-! The commands of the program, what each of them takes, and how their usage is written. -/
namespace LoxLexis.CommandLine

/-- The program by itself, and its subcommands that take arguments. -/
inductive Command
  | scanner
  | repl
  | tokenize
deriving DecidableEq, Repr

inductive Parameter
  | format
  | help
  | version
  | sourceFile
deriving DecidableEq, Repr

inductive FileDemand
  | never
  | optional
  | required
deriving DecidableEq, Repr

namespace Parameter

/-- The name of an option. A source file is given by its place and has none. -/
def flagName? : Parameter → Option String
  | format => some "format"
  | help => some "help"
  | version => some "version"
  | sourceFile => none

def flagText : Parameter → String
  | format => "--format <FORMAT>"
  | help => "--help"
  | version => "--version"
  | sourceFile => "<SOURCE_FILE>"

def alternativeText : Parameter → String
  | sourceFile => "SOURCE_FILE"
  | p => p.flagText

end Parameter

namespace Command

def invocation : Command → String
  | scanner => "lox-scanner"
  | repl => "lox-scanner repl"
  | tokenize => "lox-scanner tokenize"

def fileDemand : Command → FileDemand
  | scanner => .optional
  | repl => .never
  | tokenize => .required

def takesFile (c : Command) : Bool := c.fileDemand != .never

def options : Command → List Parameter
  | scanner => [.format, .help, .version]
  | repl | tokenize => [.format, .help]

def option? (c : Command) (name : String) : Option Parameter :=
  c.options.find? fun p => p.flagName? == some name

def optionNames (c : Command) : List String := c.options.filterMap Parameter.flagName?

def subcommandNames : Command → List String
  | scanner => ["repl", "tokenize", "help"]
  | repl | tokenize => []

def usage (c : Command) : String :=
  c.invocation ++ " [OPTIONS]" ++
    (match c.fileDemand with
      | .never => ""
      | .optional => " [SOURCE_FILE]"
      | .required => " <SOURCE_FILE>") ++
    (if c.subcommandNames.isEmpty then "" else " [COMMAND]")

/-- The use of the command with certain parameters. Without any, any use. -/
def usageWith (c : Command) (parameters : List Parameter) : String :=
  if parameters.isEmpty then c.usage
  else
    c.invocation ++
      String.join ((parameters.filter (· != .sourceFile)).map fun p => " " ++ p.flagText) ++
      (match c.fileDemand with
        | .never => ""
        | .optional => if .sourceFile ∈ parameters then " <SOURCE_FILE>" else " [SOURCE_FILE]"
        | .required => " <SOURCE_FILE>")

/-- The parameters that are a command's own, as against those that all commands have. -/
def ownParameters : Command → List Parameter
  | scanner => [.sourceFile, .format]
  | repl => []
  | tokenize => [.sourceFile]

/-- The use of the command with an option, where some of its own parameters have been given. These
are written as alternatives. -/
def usageAmongOwn (c : Command) (parameters : List Parameter) : String :=
  c.invocation ++
    String.join ((parameters.filter (· ∉ c.ownParameters)).map fun p => " " ++ p.flagText) ++
    " <" ++ "|".intercalate (c.ownParameters.map Parameter.alternativeText) ++ ">"

end Command
end LoxLexis.CommandLine
