import LoxLexis.Text.TerminalControls
import LoxLexis.Text.TrailingCharacters

/-!
Breaking text into lines of a limited width, between words only. What does not show takes no room
and stays where it is.
-/
namespace LoxLexis.Text

/-- The columns that a word takes. A control character begins a sequence that takes none, up to the
letter m. -/
def columns (word : List Char) : Nat :=
  let step : Nat × Bool → Char → Nat × Bool
    | (width, inSequence), c =>
      if c.toNat < 0x20 || c == '\x7f' then (width, true)
      else if inSequence then (width, c != 'm')
      else (width + 1, false)
  (word.foldl step (0, false)).1

def reservedColumns (space : List Char) : Nat := (String.ofList space).utf8ByteSize

structure SpacedWord where
  word : List Char
  space : List Char
deriving DecidableEq, Repr

/-- Cuts a line where a word begins after a space. Spaces at its beginning are cut off too. -/
def spacedWords (line : List Char) : List SpacedWord :=
  (line.splitBy fun c next => c != ' ' || next == ' ').map fun piece =>
    let word := dropTrailing isWhiteSpace piece
    ⟨word, piece.drop word.length⟩

/-- How far a line has been laid out: its last column, and what each line broken off it begins with.
There is no such indentation before the first word. -/
structure LineState where
  column : Nat := 0
  indent : Option (List Char) := none
deriving DecidableEq, Repr

/-- Lays words out from a column on, after some white space. A word that does not fit begins a line,
and the white space before it goes. The first word of a line stays where it is. Returns the last
column too. -/
def layOut (width : Nat) (indent : List Char) (isFirst : Bool) (column : Nat) (space : List Char) :
    List SpacedWord → List Char × Nat
  | [] => (space, column)
  | w :: rest =>
    let taken := columns w.word
    let reserved := taken + reservedColumns w.space
    if isFirst && 0 < taken then
      let laid := layOut width indent false (column + reserved) w.space rest
      (space ++ w.word ++ laid.1, laid.2)
    else if width < column + taken then
      let laid := layOut width indent isFirst (reservedColumns indent + reserved) w.space rest
      ('\n' :: indent ++ w.word ++ laid.1, laid.2)
    else
      let laid := layOut width indent isFirst (column + reserved) w.space rest
      (space ++ w.word ++ laid.1, laid.2)

/-- Goes on with a line. White space that a line begins with is its indentation. -/
def wrapLine (width : Nat) (state : LineState) (line : List Char) : List Char × LineState :=
  let words := spacedWords line
  let indent := state.indent.getD <|
    match words with
    | ⟨[], space⟩ :: _ => space
    | _ => []
  let laid := layOut width indent state.indent.isNone state.column [] words
  (laid.1, ⟨laid.2, some indent⟩)

/-- Goes on with the lines of a piece of text, each with the newline that ends it. -/
def wrapLines (width : Nat) (state : LineState) (piece : List Char) : List Char × LineState :=
  match piece.splitBy fun c _ => c != '\n' with
  | [] => ([], state)
  | line :: rest =>
    rest.foldl
      (fun (done, _) line =>
        let wrapped := wrapLine width {} line
        (done ++ wrapped.1, wrapped.2))
      (wrapLine width state line)

/-- Breaks a text so that no line is wider than given, unless a word is. Words end also where
something stands that does not show. -/
def wrap (width : Nat) (text : List Char) : List Char :=
  let pieces := (markShown .ends .outside text).splitBy fun c next => c.2 == next.2
  let step : List Char × LineState → List (Char × Bool) → List Char × LineState
    | (done, state), piece =>
      let characters := piece.map (·.1)
      if piece.all (·.2) then
        let wrapped := wrapLines width state characters
        (done ++ wrapped.1, wrapped.2)
      else (done ++ characters, state)
  (pieces.foldl step ([], {})).1

/-- Breaks a text, and indents every resulting line but the first. -/
def wrapIndented (width indent : Nat) (text : String) : String :=
  String.ofList ((wrap width text.toList).flatMap fun c =>
    if c == '\n' then c :: List.replicate indent ' ' else [c])

end LoxLexis.Text
