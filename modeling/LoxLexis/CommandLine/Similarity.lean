/-! How alike two words are, for suggesting what may have been meant. -/
namespace LoxLexis.CommandLine

/-- Characters of a word with their positions, marked where they have been matched. -/
structure MarkedCharacter where
  character : Char
  position : Nat
  isMatched : Bool := false
deriving DecidableEq, Repr

/-- Marks the first free occurrence of a character among the positions from `low` to `high`. -/
def markFirst (c : Char) (low high : Nat) : List MarkedCharacter → Option (List MarkedCharacter)
  | [] => none
  | m :: rest =>
    if m.character == c && !m.isMatched && low ≤ m.position && m.position ≤ high then
      some ({ m with isMatched := true } :: rest)
    else (markFirst c low high rest).map (m :: ·)

/-- Matches each character of a word in turn with one of the other word not further away than
`reach`. Returns the matched characters of both in order. -/
def matchedCharacters (reach : Nat) (word other : List Char) : List Char × List Char :=
  let marked := other.zipIdx.map fun (c, i) => MarkedCharacter.mk c i false
  let (found, marked) := word.zipIdx.foldl
    (fun (found, marked) (c, i) =>
      match markFirst c (i - reach) (i + reach) marked with
      | some marked => (c :: found, marked)
      | none => (found, marked))
    ([], marked)
  (found.reverse, (marked.filter (·.isMatched)).map (·.character))

/-- The Jaro similarity of two words, between zero and one, in double arithmetic. -/
def jaro (word other : String) : Float :=
  let a := word.toList
  let b := other.toList
  if a.isEmpty && b.isEmpty then 1
  else
    let reach := max a.length b.length / 2 - 1
    let (inWord, inOther) := matchedCharacters reach a b
    let count := inWord.length
    if count = 0 then 0
    else
      let transpositions := ((inWord.zip inOther).countP fun (x, y) => x != y) / 2
      (count.toFloat / a.length.toFloat + count.toFloat / b.length.toFloat +
        (count - transpositions).toFloat / count.toFloat) / 3

def suggestionThreshold : Float := 0.7

/-- The candidates alike enough to a word, the most alike last. Of equally alike ones the order is
kept. -/
def suggestions (word : String) (candidates : List String) : List String :=
  let scored := (candidates.map fun candidate => (jaro word candidate, candidate)).filter
    fun (score, _) => suggestionThreshold < score
  (scored.mergeSort fun x y => x.1 ≤ y.1).map (·.2)

/-- The candidate most alike to a word, the last of them if there are several. -/
def bestSuggestion? (word : String) (candidates : List String) : Option String :=
  (suggestions word candidates).getLast?

end LoxLexis.CommandLine
