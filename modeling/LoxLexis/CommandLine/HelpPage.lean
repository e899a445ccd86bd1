import LoxLexis.CommandLine.Command
import LoxLexis.Text.WordWrap

/-! The pages that tell how the program is used. -/
namespace LoxLexis.CommandLine

inductive HelpTopic
  | command (c : Command)
  | helpItself
deriving DecidableEq, Repr

/-- The width of a page, and the columns at which explanations begin: beside the options on a short
page, and under them on a long one. -/
def pageWidth : Nat := 100

def shortColumn : Nat := 25

def longColumn : Nat := 10

def versionPage : String := "lox-scanner 0.1.0\n"

def pageOf (paragraphs : List String) : String := "\n\n".intercalate paragraphs ++ "\n"

def block (heading : String) (lines : List String) : String :=
  "\n".intercalate ((heading ++ ":") :: lines)

namespace Command

def about : Command → String
  | scanner =>
    "lox-scanner turns Lox source code into tokens, either from a file or line by line from an " ++
      "interactive prompt"
  | repl => "run the lox repl, printing the tokens of every line"
  | tokenize => "tokenize the given file and print its contents"

def fileNote : Command → String
  | scanner => "Source File for the program"
  | repl | tokenize => ""

def fileText : Command → String
  | scanner => "[SOURCE_FILE]"
  | repl | tokenize => "<SOURCE_FILE>"

end Command

def aboutHelp : String := "Print this message or the help of the given subcommand(s)"

def helpUsage : String := "lox-scanner help [COMMAND]..."

def aboutFormat : String := "How to print the tokens"

/-- The variable that sets the layout, with the value it has. -/
def environmentNote (environment : Option String) : String :=
  "[env: LOX_TOKEN_FORMAT=" ++ environment.getD "" ++ "]"

def defaultNote : String := "[default: " ++ Layout.display.name ++ "]"

def possibleValues : String :=
  "[possible values: " ++ ", ".intercalate (Layout.all.map Layout.name) ++ "]"

def commandsBlock : String :=
  block "Commands"
    ["  repl      " ++ Command.repl.about, "  tokenize  " ++ Command.tokenize.about,
      "  help      " ++ aboutHelp]

def usageLine (usage : String) : String := "Usage: " ++ usage

def pageHead (c : Command) : List String :=
  [Text.wrapIndented pageWidth 0 c.about, usageLine c.usage] ++
    (if c.subcommandNames.isEmpty then [] else [commandsBlock])

/-- A note, and the space before the name of the next option. There a control sequence in the note
ends at the latest. -/
def noteUpToName (note space : String) : String := Text.withoutControls .interrupts (note ++ space)

/-- A page on which every option has one line, or as few as it fits into. -/
def shortPage (environment : Option String) (c : Command) : String :=
  let format := " ".intercalate
    [aboutFormat, environmentNote environment, defaultNote, possibleValues]
  let options :=
    ["      --format <FORMAT>  " ++
        noteUpToName (Text.wrapIndented (pageWidth - shortColumn) shortColumn format) "\n  " ++
        "-h, --help             Print help (see more with '--help')"] ++
    (if .version ∈ c.options then ["  -V, --version          Print version"] else [])
  pageOf (pageHead c ++
    (if c.takesFile then [block "Arguments" ["  " ++ c.fileText ++ "  " ++ c.fileNote]] else []) ++
    [block "Options" options])

def layoutNotes : List String :=
  ["- display:   `Token(type=NUMBER, lexeme='1', literal=1.0, line=1)`",
    "- canonical: `NUMBER 1 1.0`, as printed by the reference test suite",
    "- debug:     Rust's debug representation"]

/-- A page on which explanations stand under what they explain. -/
def longPage (environment : Option String) (c : Command) : String :=
  let margin := String.ofList (List.replicate longColumn ' ')
  let notes := Text.wrapIndented (pageWidth - longColumn) longColumn
    (environmentNote environment ++ "\n" ++ defaultNote)
  pageOf (pageHead c ++
    (if c.takesFile then [block "Arguments" ["  " ++ c.fileText, margin ++ c.fileNote]] else []) ++
    [block "Options" ["      --format <FORMAT>", margin ++ aboutFormat],
      "\n".intercalate
        ([margin ++ "Possible values:"] ++ layoutNotes.map (margin ++ ·) ++
          [margin, margin ++ noteUpToName notes "\n\n  "]) ++
        "-h, --help\n" ++ margin ++ "Print help (see a summary with '-h')"] ++
    (if .version ∈ c.options then ["  -V, --version\n" ++ margin ++ "Print version"] else []))

def helpPage : String :=
  pageOf [aboutHelp, usageLine helpUsage,
    block "Arguments" ["  [COMMAND]...  Print help for the subcommand(s)"]]

namespace HelpTopic

def page (environment : Option String) : HelpTopic → String
  | command c => longPage environment c
  | helpItself => helpPage

end HelpTopic
end LoxLexis.CommandLine
