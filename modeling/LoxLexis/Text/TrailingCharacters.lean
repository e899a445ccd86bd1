/-! Taking characters off the end of a text. -/
namespace LoxLexis.Text

/-- The text without the longest run of characters of one class at its end. -/
def dropTrailing (p : Char → Bool) (text : List Char) : List Char :=
  (text.reverse.dropWhile p).reverse

def isWhiteSpace (c : Char) : Bool :=
  (0x09 ≤ c.toNat && c.toNat ≤ 0x0d) || c.toNat == 0x20 || c.toNat == 0x85 || c.toNat == 0xa0 ||
    c.toNat == 0x1680 || (0x2000 ≤ c.toNat && c.toNat ≤ 0x200a) || c.toNat == 0x2028 ||
    c.toNat == 0x2029 || c.toNat == 0x202f || c.toNat == 0x205f || c.toNat == 0x3000

def isLineTerminator (c : Char) : Bool := c == '\n' || c == '\r'

theorem dropTrailing_append_of_all {p : Char → Bool} {kept dropped : List Char}
    (h : dropped.all p = true) : dropTrailing p (kept ++ dropped) = dropTrailing p kept := by
  have hall : ∀ c ∈ dropped.reverse, p c = true := by simpa using h
  rw [dropTrailing, List.reverse_append, List.dropWhile_append_of_pos hall, dropTrailing]

theorem dropTrailing_concat {p : Char → Bool} {text : List Char} {last : Char}
    (h : p last = false) : dropTrailing p (text ++ [last]) = text ++ [last] := by
  simp [dropTrailing, h]

theorem exists_dropTrailing_append (p : Char → Bool) (text : List Char) :
    ∃ dropped : List Char, text = dropTrailing p text ++ dropped ∧ dropped.all p = true := by
  refine ⟨(text.reverse.takeWhile p).reverse, ?_, ?_⟩
  · rw [dropTrailing, ← List.reverse_append, List.takeWhile_append_dropWhile, List.reverse_reverse]
  · rw [List.all_reverse]
    exact List.all_takeWhile

end LoxLexis.Text
