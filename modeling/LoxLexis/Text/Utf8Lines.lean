/-! Bytes as text and as lines of text. -/
namespace LoxLexis.Text

/-- The text that the bytes encode, unless they are no valid UTF-8. -/
def decodeUtf8? (bytes : List UInt8) : Option String :=
  String.fromUTF8? ⟨bytes.toArray⟩

def newlineByte : UInt8 := 10

def prependByte (byte : UInt8) : List (List UInt8) → List (List UInt8)
  | [] => [[byte]]
  | line :: rest => if byte = newlineByte then [byte] :: line :: rest else (byte :: line) :: rest

/-- Lines of bytes, each with the newline that ends it. The last one may lack it. -/
def splitLines (bytes : List UInt8) : List (List UInt8) := bytes.foldr prependByte []

end LoxLexis.Text
