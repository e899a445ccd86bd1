import LoxLexis.CommandLine.HelpPage
import LoxLexis.CommandLine.Misuse
import LoxLexis.CommandLine.Similarity

/-!
Reading a command line, argument by argument. An argument is checked only when the next one begins,
so that of two faults the earlier is complained of.
-/
namespace LoxLexis.CommandLine

/-- Why reading ends before all is read. -/
inductive Stop
  | page (text : String)
  | misuse (m : Misuse)
deriving DecidableEq, Repr

/-- What has been read of an argument that is not yet checked. -/
inductive Unchecked
  | format (value : Option String)
  | sourceFile (path : String)
deriving DecidableEq, Repr

/-- How far the arguments of one command have been read. `given` holds the parameters checked, in
order. -/
structure Reading where
  command : Command
  given : List Parameter := []
  layout : Option Layout := none
  sourceFile : Option String := none
  unchecked : Option Unchecked := none
  awaitsFormat : Bool := false
  fileTaken : Bool := false
  onlyFiles : Bool := false
deriving DecidableEq, Repr

def layoutOf (value : String) : Except Misuse Layout :=
  if value.isEmpty then .error .missingFormat
  else
    match Layout.ofName? value with
    | some l => .ok l
    | none =>
      let similar := bestSuggestion? value (Layout.all.map Layout.name)
      .error (.invalidFormat value (similar.map .similarValue))

namespace Reading

/-- Checks the value given for the format. A second one undoes the first. -/
def checkFormat (r : Reading) (value : String) : Reading × Option Misuse :=
  if .format ∈ r.given then
    ({ r with given := r.given.erase .format }, some (.repeatedFormat r.command.usage))
  else
    let r := { r with given := r.given ++ [.format] }
    match layoutOf value with
    | .ok l => ({ r with layout := some l }, none)
    | .error m => (r, some m)

/-- Checks what has been read. What can be told of it is kept even if it is wrong. -/
def check (r : Reading) : Reading × Option Misuse :=
  let checked := { r with unchecked := none, awaitsFormat := false }
  match r.unchecked with
  | none => (checked, none)
  | some (.sourceFile path) =>
    ({ checked with given := checked.given ++ [.sourceFile], sourceFile := some path }, none)
  | some (.format none) => (checked, some .missingFormat)
  | some (.format (some value)) => checked.checkFormat value

def checkOrStop (r : Reading) : Except Stop Reading :=
  match r.check with
  | (r, none) => .ok r
  | (_, some m) => .error (.misuse m)

def usageWith (r : Reading) (more : List Parameter) : String :=
  r.command.usageWith (r.given ++ more.filter (· ∉ r.given))

/-- The usage shown where an option has a value that it does not take. -/
def usageWithFlag (r : Reading) (flag : Parameter) : String :=
  if r.given.any (· ∈ r.command.ownParameters) then r.command.usageAmongOwn (r.given ++ [flag])
  else r.usageWith [flag]

def unknownOption (r : Reading) (name : String) : Misuse :=
  let r := r.check.1
  let argument := "--" ++ name
  match (bestSuggestion? name r.command.optionNames).bind r.command.option? with
  | some p => .unexpectedArgument argument
      (some (.similarArgument ("--" ++ p.flagName?.getD ""))) (r.usageWith [p])
  | none => .unexpectedArgument argument
      (if r.command.takesFile then some (.asValue argument) else none) (r.usageWith [])

/-- Takes an option by its name, with the value attached to it if there is one. -/
def takeOption (environment : Option String) (r : Reading) (name : String) (value : Option String) :
    Except Stop Reading :=
  match r.command.option? name, value with
  | some .format, none => do
    let r ← r.checkOrStop
    return { r with unchecked := some (.format none), awaitsFormat := true }
  | some .format, some value => do
    let r ← r.checkOrStop
    { r with unchecked := some (.format (some value)) }.checkOrStop
  | some .help, none => do
    let r ← r.checkOrStop
    .error (.page (longPage environment r.command))
  | some .version, none => do
    let _ ← r.checkOrStop
    .error (.page versionPage)
  | some p, some value => .error (.misuse (.unexpectedValue value p.flagText (r.usageWithFlag p)))
  | _, _ => .error (.misuse (r.unknownOption name))

/-- Takes an option given by one letter. No such option lets another follow. -/
def takeLetter (environment : Option String) (r : Reading) (letter : Char) : Except Stop Reading :=
  if letter == 'h' then do
    let r ← r.checkOrStop
    .error (.page (shortPage environment r.command))
  else if letter == 'V' && .version ∈ r.command.options then do
    let _ ← r.checkOrStop
    .error (.page versionPage)
  else
    let argument := String.ofList ['-', letter]
    .error (.misuse (.unexpectedArgument argument
      (if r.command.takesFile then some (.asValue argument) else none) r.command.usage))

def surplus (r : Reading) (argument : String) : Misuse :=
  if r.onlyFiles && argument ∈ r.command.subcommandNames then
    .unexpectedArgument argument (some (.withoutDashes argument)) r.command.usage
  else
    match suggestions argument r.command.subcommandNames with
    | [] => .unexpectedArgument argument none r.command.usage
    | names => .unknownCommand argument (some (.similarCommands names)) r.command.usage

def takePlain (r : Reading) (argument : String) : Except Stop Reading :=
  if r.command.takesFile && !r.fileTaken then do
    let r ← r.checkOrStop
    return { r with unchecked := some (.sourceFile argument), fileTaken := true }
  else .error (.misuse (r.surplus argument))

/-- Takes the next argument. Two dashes alone make all that follow plain. -/
def take (environment : Option String) (r : Reading) (argument : String) : Except Stop Reading :=
  if r.onlyFiles then r.takePlain argument
  else
    match argument.toList with
    | ['-', '-'] => .ok { r with onlyFiles := true }
    | '-' :: '-' :: option =>
      let name := String.ofList (option.takeWhile (· != '='))
      match option.dropWhile (· != '=') with
      | [] => r.takeOption environment name none
      | _ :: value => r.takeOption environment name (some (String.ofList value))
    | '-' :: letter :: _ => r.takeLetter environment letter
    | _ =>
      if r.awaitsFormat then
        .ok { r with unchecked := some (.format (some argument)), awaitsFormat := false }
      else r.takePlain argument

/-- The layout from the environment, which counts only where none is given. -/
def environmentLayout (environment : Option String) (r : Reading) :
    Except Misuse (Option Layout) :=
  match environment with
  | some value => if .format ∈ r.given then .ok none else (layoutOf value).map some
  | none => .ok none

end Reading

/-- All that a command line says. A layout that is given counts before one from the environment. -/
structure Instruction where
  command : Command
  sourceFile : Option String
  givenLayout : Option Layout
  environmentLayout : Option Layout
deriving DecidableEq, Repr

namespace Instruction

def layout (i : Instruction) : Layout :=
  (i.givenLayout <|> i.environmentLayout).getD .display

end Instruction

/-- Ends reading the arguments of a command: checks the last, then the environment, then whether
anything is missing. -/
def Reading.conclude (environment : Option String) (r : Reading) : Except Stop Instruction := do
  let r ← r.checkOrStop
  match r.environmentLayout environment with
  | .error m => .error (.misuse m)
  | .ok fromEnvironment =>
    if r.command.fileDemand = .required ∧ r.sourceFile = none then
      let named := if fromEnvironment.isSome then [Parameter.format] else []
      .error (.misuse (.missingFile (r.usageWith (named ++ [.sourceFile]))))
    else
      return ⟨r.command, r.sourceFile, r.layout, fromEnvironment⟩

/-- What the words after `help` ask for, starting from a topic. -/
def topicOf : HelpTopic → List String → Except Misuse HelpTopic
  | topic, [] => .ok topic
  | .command .scanner, "repl" :: rest => topicOf (.command .repl) rest
  | .command .scanner, "tokenize" :: rest => topicOf (.command .tokenize) rest
  | .command .scanner, "help" :: rest => topicOf .helpItself rest
  | .command c, name :: _ => .error (.unknownTopic name c.usage true)
  | .helpItself, name :: _ => .error (.unknownTopic name helpUsage false)

def Reading.callsSubcommand (r : Reading) (argument : String) : Bool :=
  !r.onlyFiles && !r.awaitsFormat && argument ∈ r.command.subcommandNames

/-- Reads the arguments of a command. Those after the name of a subcommand are its own; what was
given before it counts where it gives nothing itself, but its own source file alone. -/
def readArguments (environment : Option String) (r : Reading) :
    List String → Except Stop Instruction
  | [] => r.conclude environment
  | argument :: rest =>
    if r.callsSubcommand argument then
      if argument = "help" then
        match topicOf (.command r.command) rest with
        | .ok topic => .error (.page (topic.page environment))
        | .error m => .error (.misuse m)
      else do
        let command := if argument = "repl" then Command.repl else .tokenize
        let inner ← readArguments environment { command } rest
        let outer ← r.conclude environment
        return { inner with givenLayout := inner.givenLayout <|> outer.givenLayout }
    else do
      let r ← r.take environment argument
      readArguments environment r rest

def read (environment : Option String) (arguments : List String) : Except Stop Instruction :=
  readArguments environment { command := .scanner } arguments

end LoxLexis.CommandLine
