import LoxLexis.Scan.Basic

/-! Figures that sum up a scan too long to be looked at token by token. -/
namespace LoxLexis

structure ScanSummary where
  /-- How often each kind occurs that occurs at all. -/
  kinds : List (Kind × Nat)
  lexemeBytes : Nat
  lineSum : Nat
  lastLine : Nat
  firstNumbers : List Binary64
  faultCount : Nat
  onlyUnterminated : Bool
  lastFault : Option Fault
deriving DecidableEq, Repr

def Token.number? (t : Token) : Option Binary64 :=
  match t.kind, t.literal with
  | .number, some (.number value) => some value
  | _, _ => none

/-- Of the numbers, the first few are kept. -/
def Scan.summary (s : Scan) (numbersKept : Nat) : ScanSummary where
  kinds := (Kind.all.map fun kind => (kind, s.tokens.countP (·.kind == kind))).filter (·.2 != 0)
  lexemeBytes := s.tokens.foldl (fun bytes t => bytes + t.lexeme.utf8ByteSize) 0
  lineSum := s.tokens.foldl (fun sum t => sum + t.line) 0
  lastLine := (s.tokens.getLast?.map (·.line)).getD 0
  firstNumbers := (s.tokens.filterMap Token.number?).take numbersKept
  faultCount := s.faults.length
  onlyUnterminated := Fault.onlyUnterminated s.faults
  lastFault := s.faults.getLast?

end LoxLexis
