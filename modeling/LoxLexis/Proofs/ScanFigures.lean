import LoxLexis.Proofs.MendableText
import LoxLexis.Proofs.PrintedTokens
import LoxLexis.Proofs.SourceTiles
import LoxLexis.Scan.Summary
import Mathlib

/-! What the figures say that sum up a scan. -/
namespace LoxLexis

private theorem sum_beq_all (k : Kind) :
    (Kind.all.map fun kind => if k == kind then 1 else 0).sum = 1 := by
  cases k with
  | mark m => cases m <;> decide
  | keyword k => cases k <;> decide
  | identifier | string | number | endOfInput => decide

private theorem sum_countP_all (tokens : List Token) :
    (Kind.all.map fun kind => tokens.countP (·.kind == kind)).sum = tokens.length := by
  induction tokens with
  | nil => simp
  | cons t rest ih =>
    simp only [List.countP_cons, List.length_cons]
    rw [List.sum_map_add, ih, sum_beq_all]

private theorem sum_filter_ne_zero {α : Type} (l : List (α × Nat)) :
    ((l.filter (·.2 != 0)).map (·.2)).sum = (l.map (·.2)).sum := by
  induction l with
  | nil => rfl
  | cons x rest ih => by_cases hx : x.2 = 0 <;> simp [hx, ih]

private theorem foldl_add_eq_sum (f : Token → Nat) (start : Nat) (tokens : List Token) :
    tokens.foldl (fun total t => total + f t) start = start + (tokens.map f).sum := by
  induction tokens generalizing start with
  | nil => rfl
  | cons t rest ih => rw [List.foldl_cons, ih, List.map_cons, List.sum_cons, Nat.add_assoc]

private theorem Munch.sum_lexemes_le {before text : List Char} {pieces : List (List Char)}
    {tokens : List Token} {faults : List Fault} (h : Munch before text pieces tokens faults) :
    (tokens.map (·.lexeme.utf8ByteSize)).sum ≤ byteLength text := by
  induction h with
  | done | openString => exact Nat.zero_le _
  | token _ _ _ ih =>
    rw [List.map_cons, List.sum_cons, byteLength_append]
    exact Nat.add_le_add_left ih _
  | gap _ _ _ ih =>
    rw [byteLength_append]
    exact ih.trans (Nat.le_add_left _ _)
  | stray _ _ _ ih =>
    rw [byteLength_cons]
    exact ih.trans (Nat.le_add_left _ _)

private theorem Munch.line_le {before text : List Char} {pieces : List (List Char)}
    {tokens : List Token} {faults : List Fault} (h : Munch before text pieces tokens faults)
    {t : Token} (ht : t ∈ tokens) : t.line ≤ lineAfter (before ++ text) := by
  induction h with
  | done | openString => cases ht
  | token _ _ _ ih =>
    rw [← List.append_assoc]
    rcases List.mem_cons.mp ht with rfl | ht
    · exact lineAfter_le_of_prefix (by simp)
    · exact ih ht
  | gap _ _ _ ih =>
    rw [← List.append_assoc]
    exact ih ht
  | stray _ _ _ ih =>
    rw [List.append_cons]
    exact ih ht

namespace Scan

/-- Each token is counted once. -/
theorem sum_kinds_summary (s : Scan) (numbersKept : Nat) :
    ((s.summary numbersKept).kinds.map (·.2)).sum = s.tokens.length := by
  rw [summary, sum_filter_ne_zero, List.map_map]
  exact sum_countP_all s.tokens

private theorem mem_kinds_summary_iff {s : Scan} {numbersKept : Nat} {kind : Kind} {count : Nat} :
    (kind, count) ∈ (s.summary numbersKept).kinds ↔
      count ≠ 0 ∧ s.tokens.countP (·.kind == kind) = count := by
  simp only [summary, List.mem_filter, List.mem_map, Prod.mk.injEq, bne_iff_ne]
  constructor
  · rintro ⟨⟨_, -, rfl, rfl⟩, hne⟩
    exact ⟨hne, rfl⟩
  · rintro ⟨hne, rfl⟩
    exact ⟨⟨kind, kind.mem_all, rfl, rfl⟩, hne⟩

end Scan

variable (source : String) (numbersKept : Nat)

/-- The last line is that of the end, which is marked by one token. -/
theorem summary_scan_end :
    (Kind.endOfInput, 1) ∈ ((scan source).summary numbersKept).kinds ∧
      ((scan source).summary numbersKept).lastLine = lineAfter source.toList := by
  obtain ⟨tokens, ht, hm⟩ := munch_scan source
  have hothers : tokens.countP (·.kind == .endOfInput) = 0 := by
    rw [List.countP_eq_zero]
    intro t hmem
    have hwell : Denotes t.lexeme.toList t.kind t.literal := hm.wellFormed t hmem
    simpa using hwell.kind_ne_endOfInput
  constructor
  · rw [Scan.mem_kinds_summary_iff, ht, List.countP_append, hothers]
    exact ⟨Nat.one_ne_zero, rfl⟩
  · rw [Scan.summary, ht, List.getLast?_concat]
    rfl

theorem lexemeBytes_summary_scan_le :
    ((scan source).summary numbersKept).lexemeBytes ≤ source.utf8ByteSize := by
  obtain ⟨tokens, ht, hm⟩ := munch_scan source
  have hsum := hm.sum_lexemes_le
  rw [byteLength_toList] at hsum
  rw [Scan.summary, foldl_add_eq_sum, ht]
  simpa [Token.atEnd] using hsum

theorem lineSum_summary_scan_le :
    ((scan source).summary numbersKept).lineSum ≤
      (scan source).tokens.length * lineAfter source.toList := by
  obtain ⟨tokens, ht, hm⟩ := munch_scan source
  have hlines : ∀ t ∈ (scan source).tokens, t.line ≤ lineAfter source.toList := by
    intro t hmem
    rw [ht, List.mem_append, List.mem_singleton] at hmem
    rcases hmem with hmem | rfl
    · exact hm.line_le hmem
    · exact Nat.le_refl _
  have hsum := List.sum_le_card_nsmul ((scan source).tokens.map Token.line) _
    (by simpa using hlines)
  have hfold := foldl_add_eq_sum Token.line 0 (scan source).tokens
  rw [Nat.zero_add] at hfold
  refine hfold.trans_le ?_
  simpa using hsum

/-- The count of the faults, and whether more input could mend them. -/
theorem faultCount_summary_scan_eq_zero_iff :
    ((scan source).summary numbersKept).faultCount = 0 ↔
      ∃ tokens, tokenize source = .ok tokens := by
  rw [exists_tokenize_iff]
  exact List.length_eq_zero_iff

theorem onlyUnterminated_summary_scan_iff :
    ((scan source).summary numbersKept).onlyUnterminated = true ↔
      ((scan source).summary numbersKept).faultCount ≠ 0 ∧
        ∃ more tokens, tokenize (source ++ more) = .ok tokens := by
  have hcount : ((scan source).summary numbersKept).faultCount ≠ 0 ↔ (scan source).faults ≠ [] :=
    List.length_eq_zero_iff.not
  rw [exists_mended_iff, hcount]
  exact onlyUnterminated_scan_iff source

end LoxLexis
