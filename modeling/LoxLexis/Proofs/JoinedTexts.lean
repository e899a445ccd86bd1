import LoxLexis.Proofs.LexemeSeams

/-! Two texts with a newline between them are scanned one by one. -/
namespace LoxLexis

/-- The same token some lines further down. -/
def Token.later (lines : Nat) (t : Token) : Token := { t with line := t.line + lines }

def Fault.later (lines : Nat) : Fault → Fault
  | .unexpectedCharacter c line => .unexpectedCharacter c (line + lines)
  | .unterminatedString line => .unterminatedString (line + lines)

theorem Fault.isUnterminated_later (f : Fault) (lines : Nat) :
    (f.later lines).isUnterminated = f.isUnterminated := by
  cases f <;> rfl

namespace Lexeme

private theorem token?_add (l : Lexeme) (line lines : Nat) :
    l.token? (line + lines) = (l.token? line).map (Token.later lines) := by
  rw [token?, token?, Option.map_map]
  rfl

private theorem fault?_add (l : Lexeme) (line lines : Nat) :
    l.fault? (line + lines) = (l.fault? line).map (Fault.later lines) := by
  unfold fault?
  cases l.category <;> simp [Fault.later, Nat.add_right_comm]

end Lexeme

theorem tokensFrom_add (line lines : Nat) (lexemes : List Lexeme) :
    tokensFrom (line + lines) lexemes = (tokensFrom line lexemes).map (Token.later lines) := by
  induction lexemes generalizing line with
  | nil => rfl
  | cons l rest ih =>
    rw [tokensFrom, tokensFrom, l.token?_add, Nat.add_right_comm, ih, List.map_append,
      Option.toList_map]

theorem faultsFrom_add (line lines : Nat) (lexemes : List Lexeme) :
    faultsFrom (line + lines) lexemes = (faultsFrom line lexemes).map (Fault.later lines) := by
  induction lexemes generalizing line with
  | nil => rfl
  | cons l rest ih =>
    rw [faultsFrom, faultsFrom, l.fault?_add, Nat.add_right_comm, ih, List.map_append,
      Option.toList_map]

section
variable {before : List Char} {source whole : String}

private theorem Token.later_atEnd (h : before ++ source.toList = whole.toList) :
    (Token.atEnd source).later (before.count '\n') = Token.atEnd whole := by
  rw [Token.atEnd, Token.atEnd, ← h, lineAfter_append, Token.later, lineAfter, lineAfter]
  simp only [Nat.add_right_comm]

theorem tokens_map_later (h : before ++ source.toList = whole.toList) :
    (scan source).tokens.map (Token.later (before.count '\n')) =
      tokensFrom (lineAfter before) (Lexeme.sequence source.toList) ++ [Token.atEnd whole] := by
  rw [scan_tokens, List.map_append, ← tokensFrom_add, ← Token.later_atEnd h]
  rfl

theorem faults_map_later (before : List Char) (source : String) :
    (scan source).faults.map (Fault.later (before.count '\n')) =
      faultsFrom (lineAfter before) (Lexeme.sequence source.toList) := by
  rw [scan_faults, ← faultsFrom_add]
  rfl

end

/-- Behind another text the derivation is the same, on later lines. -/
theorem munch_later (before : List Char) (source : String) :
    ∃ tokens, (scan source).tokens = tokens ++ [Token.atEnd source] ∧
      Munch before source.toList (cuts source) (tokens.map (Token.later (before.count '\n')))
        ((scan source).faults.map (Fault.later (before.count '\n'))) := by
  refine ⟨_, scan_tokens source, ?_⟩
  rw [scan_faults, ← tokensFrom_add, ← faultsFrom_add]
  exact munch_sequence before source.toList

/-- What follows a newline is scanned as by itself, unless a string is open before it. -/
theorem scan_append_newline {first : String}
    (hclosed : (scan first).faults.any Fault.isUnterminated = false) (second : String) :
    let lines := first.toList.count '\n' + 1
    ∃ tokens, (scan first).tokens = tokens ++ [Token.atEnd first] ∧
      cuts (first ++ "\n" ++ second) = cuts first ++ ['\n'] :: cuts second ∧
      scan (first ++ "\n" ++ second) =
        ⟨tokens ++ (scan second).tokens.map (Token.later lines),
          (scan first).faults ++ (scan second).faults.map (Fault.later lines)⟩ := by
  intro lines
  obtain ⟨tokens, ht, hfirst⟩ := munch_scan first
  obtain ⟨tokens', ht', hsecond⟩ := munch_later (first.toList ++ ['\n']) second
  have hlines : (first.toList ++ ['\n']).count '\n' = lines := by simp [lines]
  have hnewline : IsLongest .blank ['\n'] second.toList := isLongest_blank rfl _
  rw [hlines] at hsecond
  have hgap : Munch first.toList ('\n' :: second.toList) _ _ _ :=
    .gap hnewline (Or.inl rfl) hsecond
  have hwhole := hfirst.append hclosed (by simp) hgap
  have hlist : first.toList ++ '\n' :: second.toList = (first ++ "\n" ++ second).toList := by simp
  rw [hlist] at hwhole
  refine ⟨tokens, ht, hwhole.eq_sequence.1.symm, ?_⟩
  have hend : (Token.atEnd second).later lines = Token.atEnd (first ++ "\n" ++ second) := by
    rw [← hlines]
    exact Token.later_atEnd (by simp)
  rw [hwhole.scan_eq, ht', List.map_append, List.append_assoc, ← hend]
  rfl

end LoxLexis
