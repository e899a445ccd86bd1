import LoxLexis.Lexeme.Meaning
import LoxLexis.Lexeme.Sequence

/-!
Scanning source text into tokens. Faults do not stop a scan: each is handed to a sink of the
caller's choice as it is found, and the sink has no say in the tokens.
-/
namespace LoxLexis

/-- How far a scan has come: the line that the next lexeme begins on, the tokens found, and the
sink. -/
structure ScanProgress (σ : Type) where
  line : Nat
  tokens : Array Token
  sink : σ

namespace ScanProgress

def advance {σ : Type} (report : σ → Fault → σ) : ScanProgress σ → Lexeme → ScanProgress σ
  | ⟨line, tokens, sink⟩, l =>
    { line := line + l.newlines
      tokens := match l.token? line with
        | some t => tokens.push t
        | none => tokens
      sink := match l.fault? line with
        | some f => report sink f
        | none => sink }

end ScanProgress

/-- The tokens of a text, the last of which marks its end, and what has become of the sink. -/
def scanInto {σ : Type} (report : σ → Fault → σ) (sink : σ) (source : String) : List Token × σ :=
  let progress :=
    (Lexeme.sequence source.toList).foldl (ScanProgress.advance report) ⟨1, #[], sink⟩
  ((progress.tokens.push ⟨.endOfInput, "", none, progress.line⟩).toList, progress.sink)

/-- The outcome of a scan that collects its faults, in the order of the text. -/
@[ext] structure Scan where
  tokens : List Token
  faults : List Fault
deriving DecidableEq, Repr

def scan (source : String) : Scan :=
  let (tokens, faults) := scanInto Array.push #[] source
  ⟨tokens, faults.toList⟩

/-- The tokens of a text without faults, and otherwise its faults. -/
def tokenize (source : String) : Except (List Fault) (List Token) :=
  let outcome := scan source
  if outcome.faults.isEmpty then .ok outcome.tokens else .error outcome.faults

/-! The tokens and the faults of a sequence of lexemes, each by itself. -/

def tokensFrom : Nat → List Lexeme → List Token
  | _, [] => []
  | line, l :: rest => (l.token? line).toList ++ tokensFrom (line + l.newlines) rest

def faultsFrom : Nat → List Lexeme → List Fault
  | _, [] => []
  | line, l :: rest => (l.fault? line).toList ++ faultsFrom (line + l.newlines) rest

theorem foldl_advance {σ : Type} (report : σ → Fault → σ) (progress : ScanProgress σ)
    (lexemes : List Lexeme) :
    lexemes.foldl (ScanProgress.advance report) progress =
      { line := progress.line + (lexemes.flatMap Lexeme.chars).count '\n'
        tokens := progress.tokens ++ tokensFrom progress.line lexemes
        sink := (faultsFrom progress.line lexemes).foldl report progress.sink } := by
  induction lexemes generalizing progress with
  | nil => simp [tokensFrom, faultsFrom]
  | cons l rest ih =>
    rw [List.foldl_cons, ih]
    cases token : l.token? progress.line <;> cases fault : l.fault? progress.line <;>
      simp [ScanProgress.advance, tokensFrom, faultsFrom, token, fault, Lexeme.newlines,
        Nat.add_assoc]

theorem scanInto_fst {σ : Type} (report : σ → Fault → σ) (sink : σ) (source : String) :
    (scanInto report sink source).1 =
      tokensFrom 1 (Lexeme.sequence source.toList) ++
        [⟨.endOfInput, "", none, 1 + source.toList.count '\n'⟩] := by
  simp [scanInto, foldl_advance, Lexeme.flatMap_chars_sequence]

theorem scanInto_snd {σ : Type} (report : σ → Fault → σ) (sink : σ) (source : String) :
    (scanInto report sink source).2 =
      (faultsFrom 1 (Lexeme.sequence source.toList)).foldl report sink := by
  simp [scanInto, foldl_advance]

theorem scan_tokens (source : String) :
    (scan source).tokens =
      tokensFrom 1 (Lexeme.sequence source.toList) ++
        [⟨.endOfInput, "", none, 1 + source.toList.count '\n'⟩] :=
  scanInto_fst Array.push #[] source

theorem scan_faults (source : String) :
    (scan source).faults = faultsFrom 1 (Lexeme.sequence source.toList) := by
  simp [scan, scanInto_snd]

/-- Whatever the sink, the tokens are those of a scan, and the sink takes in the faults of a scan in
their order. -/
theorem scanInto_eq {σ : Type} (report : σ → Fault → σ) (sink : σ) (source : String) :
    scanInto report sink source =
      ((scan source).tokens, (scan source).faults.foldl report sink) := by
  apply Prod.ext
  · rw [scanInto_fst, scan_tokens]
  · rw [scanInto_snd, scan_faults]

end LoxLexis
