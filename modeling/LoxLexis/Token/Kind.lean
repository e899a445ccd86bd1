/-! The kinds of token: marks, the three open classes, the reserved words and the end of input. -/
namespace LoxLexis

inductive Mark
  | leftParen | rightParen | leftBrace | rightBrace
  | plus | minus | slash | star
  | bang | bangEqual | equalEqual | greater | greaterEqual | less | lessEqual
  | comma | dot | semicolon | equal
deriving DecidableEq, Repr

namespace Mark

/-- In the order in which the kinds are listed. -/
def all : List Mark :=
  [.leftParen, .rightParen, .leftBrace, .rightBrace, .plus, .minus, .slash, .star, .bang,
    .bangEqual, .equalEqual, .greater, .greaterEqual, .less, .lessEqual, .comma, .dot, .semicolon,
    .equal]

theorem mem_all (m : Mark) : m ∈ all := by cases m <;> decide

def spelling : Mark → List Char
  | .leftParen => ['('] | .rightParen => [')'] | .leftBrace => ['{'] | .rightBrace => ['}']
  | .plus => ['+'] | .minus => ['-'] | .slash => ['/'] | .star => ['*']
  | .bang => ['!'] | .bangEqual => ['!', '='] | .equalEqual => ['=', '=']
  | .greater => ['>'] | .greaterEqual => ['>', '='] | .less => ['<'] | .lessEqual => ['<', '=']
  | .comma => [','] | .dot => ['.'] | .semicolon => [';'] | .equal => ['=']

def name : Mark → String
  | .leftParen => "LEFT_PAREN" | .rightParen => "RIGHT_PAREN"
  | .leftBrace => "LEFT_BRACE" | .rightBrace => "RIGHT_BRACE"
  | .plus => "PLUS" | .minus => "MINUS" | .slash => "SLASH" | .star => "STAR"
  | .bang => "BANG" | .bangEqual => "BANG_EQUAL" | .equalEqual => "EQUAL_EQUAL"
  | .greater => "GREATER" | .greaterEqual => "GREATER_EQUAL"
  | .less => "LESS" | .lessEqual => "LESS_EQUAL"
  | .comma => "COMMA" | .dot => "DOT" | .semicolon => "SEMICOLON" | .equal => "EQUAL"

/-- The mark that a character is by itself. -/
def ofChar? : Char → Option Mark
  | '(' => some .leftParen | ')' => some .rightParen
  | '{' => some .leftBrace | '}' => some .rightBrace
  | '+' => some .plus | '-' => some .minus | '/' => some .slash | '*' => some .star
  | '!' => some .bang | '>' => some .greater | '<' => some .less | '=' => some .equal
  | ',' => some .comma | '.' => some .dot | ';' => some .semicolon
  | _ => none

def withEqual? : Mark → Option Mark
  | .bang => some .bangEqual
  | .equal => some .equalEqual
  | .greater => some .greaterEqual
  | .less => some .lessEqual
  | _ => none

theorem spelling_of_ofChar? {c : Char} {m : Mark} (h : ofChar? c = some m) : m.spelling = [c] := by
  unfold ofChar? at h
  split at h <;> simp_all [spelling] <;> subst h <;> rfl

theorem spelling_of_withEqual? {m n : Mark} (h : m.withEqual? = some n) :
    n.spelling = m.spelling ++ ['='] := by
  cases m <;> cases h <;> rfl

end Mark

inductive Keyword
  | protected and | «class» | else | protected false | fun | for | if | nil | protected or | print
  | return | super | this | protected true | var | while
deriving DecidableEq, Repr

namespace Keyword

/-- In the order in which the kinds are listed. -/
def all : List Keyword :=
  [.and, .class, .else, .false, .fun, .for, .if, .nil, .or, .print, .return, .super, .this, .true,
    .var, .while]

theorem mem_all (k : Keyword) : k ∈ all := by cases k <;> decide

def spelling : Keyword → String
  | .and => "and" | .class => "class" | .else => "else" | .false => "false" | .fun => "fun"
  | .for => "for" | .if => "if" | .nil => "nil" | .or => "or" | .print => "print"
  | .return => "return" | .super => "super" | .this => "this" | .true => "true" | .var => "var"
  | .while => "while"

/-- A keyword goes by its spelling in capitals. -/
def name (k : Keyword) : String := String.ofList (k.spelling.toList.map Char.toUpper)

/-- The keyword that a word spells. Case matters. -/
def ofSpelling? (word : String) : Option Keyword := all.find? (·.spelling == word)

theorem ofSpelling?_spelling (k : Keyword) : ofSpelling? k.spelling = some k := by
  cases k <;> decide

theorem ofSpelling?_eq_some_iff {word : String} {k : Keyword} :
    ofSpelling? word = some k ↔ word = k.spelling := by
  constructor
  · intro h
    unfold ofSpelling? at h
    have spelled := List.find?_some h
    simp only [beq_iff_eq] at spelled
    exact spelled.symm
  · rintro rfl
    exact ofSpelling?_spelling k

end Keyword

inductive Kind
  | mark (m : Mark)
  | identifier
  | string
  | number
  | keyword (k : Keyword)
  | endOfInput
deriving DecidableEq, Repr

namespace Kind

def all : List Kind :=
  Mark.all.map mark ++ [identifier, string, number] ++ Keyword.all.map keyword ++ [endOfInput]

theorem mem_all (k : Kind) : k ∈ all := by
  cases k <;> simp [all, Mark.mem_all, Keyword.mem_all]

/-- The name in capitals, its words joined by underscores. -/
def name : Kind → String
  | mark m => m.name
  | identifier => "IDENTIFIER"
  | string => "STRING"
  | number => "NUMBER"
  | keyword k => k.name
  | endOfInput => "EOF"

/-- Joins the words of a name, keeping only the first letter of each in capitals. -/
def joinWords : Bool → List Char → List Char
  | _, [] => []
  | atStart, c :: rest =>
    if c == '_' then joinWords true rest
    else (if atStart then c else c.toLower) :: joinWords false rest

/-- The name as one capitalised word: `LEFT_PAREN` becomes `LeftParen`. -/
def title (k : Kind) : String := String.ofList (joinWords true k.name.toList)

end Kind
end LoxLexis
