import LoxLexis.CommandLine.Command
import LoxLexis.Text.TerminalControls

/-! Command lines that make no sense, and what is said about them. -/
namespace LoxLexis.CommandLine

inductive Tip
  | asValue (argument : String)
  | similarArgument (flag : String)
  | similarValue (value : String)
  | similarCommands (names : List String)
  | withoutDashes (command : String)
deriving DecidableEq, Repr

inductive Misuse
  | unexpectedArgument (argument : String) (tip : Option Tip) (usage : String)
  | unexpectedValue (value : String) (flag : String) (usage : String)
  | missingFormat
  | invalidFormat (value : String) (tip : Option Tip)
  | repeatedFormat (usage : String)
  | missingFile (usage : String)
  | unknownCommand (name : String) (tip : Option Tip) (usage : String)
  | unknownTopic (name : String) (usage : String) (hasHelp : Bool)
deriving DecidableEq, Repr

/-- A quotation from the command line, of which only what shows is quoted. -/
def quotation (text : String) : String := "'" ++ Text.withoutControls .ends text ++ "'"

namespace Tip

def text : Tip → String
  | asValue argument =>
    "to pass " ++ quotation argument ++ " as a value, use " ++ quotation ("-- " ++ argument)
  | similarArgument flag => "a similar argument exists: " ++ quotation flag
  | similarValue value => "a similar value exists: " ++ quotation value
  | similarCommands [name] => "a similar subcommand exists: " ++ quotation name
  | similarCommands names =>
    "some similar subcommands exist: " ++ ", ".intercalate (names.map quotation)
  | withoutDashes command =>
    "subcommand " ++ quotation command ++ " exists; to use it, remove the '--' before it"

end Tip

namespace Misuse

def complaint : Misuse → String
  | unexpectedArgument argument _ _ => "unexpected argument " ++ quotation argument ++ " found"
  | unexpectedValue value flag _ =>
    "unexpected value " ++ quotation value ++ " for " ++ quotation flag ++
      " found; no more were expected"
  | missingFormat =>
    "a value is required for '--format <FORMAT>' but none was supplied\n  " ++ possibleFormats
  | invalidFormat value _ =>
    "invalid value " ++ quotation value ++ " for '--format <FORMAT>'\n  " ++ possibleFormats
  | repeatedFormat _ => "the argument '--format <FORMAT>' cannot be used multiple times"
  | missingFile _ => "the following required arguments were not provided:\n  <SOURCE_FILE>"
  | unknownCommand name _ _ | unknownTopic name _ _ => "unrecognized subcommand " ++ quotation name
where
  possibleFormats := "[possible values: " ++ ", ".intercalate (Layout.all.map Layout.name) ++ "]"

def tip? : Misuse → Option Tip
  | unexpectedArgument _ tip _ | invalidFormat _ tip | unknownCommand _ tip _ => tip
  | _ => none

/-- The usage shown. Where only a value is wrong, none is. -/
def usage? : Misuse → Option String
  | unexpectedArgument _ _ usage | unexpectedValue _ _ usage | repeatedFormat usage
  | missingFile usage | unknownCommand _ _ usage | unknownTopic _ usage _ => some usage
  | missingFormat | invalidFormat _ _ => none

def hasHelp : Misuse → Bool
  | unknownTopic _ _ hasHelp => hasHelp
  | _ => true

/-- The complaint and what follows it, with empty lines between. -/
def text (m : Misuse) : String :=
  "\n\n".intercalate
    (("error: " ++ m.complaint) ::
      (m.tip?.map fun tip => "  tip: " ++ tip.text).toList ++
      (m.usage?.map fun usage => "Usage: " ++ usage).toList ++
      (if m.hasHelp then ["For more information, try '--help'."] else []))

end Misuse
end LoxLexis.CommandLine
