import LoxLexis.Proofs.PrintedTokens
import LoxLexis.Proofs.PromptReplies

/-! Line terminators at the end of a text, and what the prompt makes of a text without them. -/
namespace LoxLexis
open Alphabet

/-- The same fault of a text that goes on for some lines, all of them within a string left open. -/
def Fault.prolong (lines : Nat) : Fault → Fault
  | .unexpectedCharacter c line => .unexpectedCharacter c line
  | .unterminatedString line => .unterminatedString (line + lines)

private theorem isBlank_of_isLineTerminator {c : Char} (h : Text.isLineTerminator c = true) :
    isBlank c = true := by
  simp only [Text.isLineTerminator, Bool.or_eq_true, beq_iff_eq] at h
  rcases h with rfl | rfl <;> rfl

private theorem Munch.eq_nil {before : List Char} {pieces : List (List Char)} {tokens : List Token}
    {faults : List Fault} (h : Munch before [] pieces tokens faults) :
    tokens = [] ∧ faults = [] := by
  obtain ⟨-, ht, hf⟩ := h.eq_sequence
  rw [Lexeme.sequence_nil] at ht hf
  exact ⟨ht, hf⟩

/-- Line terminators at the end of a text add no token and no fault. They only move the end. -/
theorem Munch.append_terminators {before text ends : List Char} {pieces : List (List Char)}
    {tokens : List Token} {faults : List Fault} (h : Munch before text pieces tokens faults)
    (hends : ∀ c ∈ ends, Text.isLineTerminator c = true) :
    ∃ more, Munch before (text ++ ends) more tokens
      (faults.map (Fault.prolong (ends.count '\n'))) := by
  have hblanks : Blanks ends := fun c hc => isBlank_iff.mp (isBlank_of_isLineTerminator (hends c hc))
  have hhead (c : Char) (hc : c ∈ ends.head?) : isBlank c = true :=
    isBlank_iff.mpr (hblanks c (List.mem_of_mem_head? hc))
  induction h with
  | @done before =>
    have hend : Munch (before ++ ends) [] [] [] [] := .done
    have hdone := munch_blanks hblanks hend
    rwa [List.append_nil] at hdone
  | @token before piece rest pieces tokens faults k kind literal hl hd _ ih =>
    obtain ⟨more, hm⟩ := ih
    have hk := hd.ne_comment hl.spells
    rw [List.append_assoc]
    exact ⟨_, .token (hl.append hhead fun hc => absurd hc hk) hd hm⟩
  | @gap before piece rest pieces tokens faults k hl hk hm ih =>
    by_cases hcomment : k = .comment ∧ rest = []
    · -- A comment that the text ends with takes in what stands before the first newline.
      obtain ⟨rfl, rfl⟩ := hcomment
      obtain ⟨rfl, rfl⟩ := hm.eq_nil
      have hlater : Blanks (ends.dropWhile (· != '\n')) := fun c hc =>
        hblanks c ((List.dropWhile_sublist _).subset hc)
      have hend : Munch (before ++ (piece ++ ends.takeWhile (· != '\n')) ++
          ends.dropWhile (· != '\n')) [] [] [] [] := .done
      obtain ⟨more, hm⟩ := munch_blanks hlater hend
      have hgap := Munch.gap (hl.spells.isLongest_comment ends) hk
        (by rwa [List.append_nil] at hm)
      rw [List.append_assoc, List.takeWhile_append_dropWhile] at hgap
      rw [List.append_nil]
      exact ⟨_, hgap⟩
    · obtain ⟨more, hm⟩ := ih
      rw [List.append_assoc]
      exact ⟨_, .gap (hl.append hhead fun hc hr => absurd ⟨hc, hr⟩ hcomment) hk hm⟩
  | @openString before rest hu =>
    have hquote : '"' ∉ ends := fun hq => absurd (hends _ hq) (by decide)
    have hopen : Unmatched ('"' :: (rest ++ ends)) := by
      rw [unmatched_quote_iff, List.mem_append, not_or]
      exact ⟨hu.quote_not_mem, hquote⟩
    have hm : Munch before _ _ _ _ := .openString hopen
    rw [← List.cons_append, ← List.append_assoc, lineAfter_append] at hm
    exact ⟨_, hm⟩
  | @stray before rest pieces tokens faults c hu hc _ ih =>
    obtain ⟨more, hm⟩ := ih
    exact ⟨_, .stray (hu.of_ne_quote hc _) hc hm⟩

private theorem scan_append_terminators (source : String) {ends : List Char}
    (h : ∀ c ∈ ends, Text.isLineTerminator c = true) :
    ∃ tokens, (scan source).tokens = tokens ++ [Token.atEnd source] ∧
      scan (source ++ String.ofList ends) =
        ⟨tokens ++ [Token.atEnd (source ++ String.ofList ends)],
          (scan source).faults.map (Fault.prolong (ends.count '\n'))⟩ := by
  obtain ⟨tokens, ht, hm⟩ := munch_scan source
  obtain ⟨pieces, hm'⟩ := hm.append_terminators h
  have hlist : source.toList ++ ends = (source ++ String.ofList ends).toList := by simp
  rw [hlist] at hm'
  exact ⟨tokens, ht, hm'.scan_eq⟩

theorem withoutTerminators_append (source : String) {ends : List Char}
    (h : ∀ c ∈ ends, Text.isLineTerminator c = true) :
    withoutTerminators (source ++ String.ofList ends) = withoutTerminators source := by
  have hall : ends.all Text.isLineTerminator = true := List.all_eq_true.mpr h
  simp [withoutTerminators, Text.dropTrailing_append_of_all hall]

private theorem exists_withoutTerminators_append (input : String) :
    ∃ ends : List Char, (∀ c ∈ ends, Text.isLineTerminator c = true) ∧
      input = withoutTerminators input ++ String.ofList ends := by
  obtain ⟨ends, heq, hall⟩ := Text.exists_dropTrailing_append Text.isLineTerminator input.toList
  refine ⟨ends, List.all_eq_true.mp hall, ?_⟩
  rw [withoutTerminators, ← String.ofList_append, ← heq, String.ofList_toList]

private theorem onlyUnterminated_map_prolong (lines : Nat) (faults : List Fault) :
    Fault.onlyUnterminated (faults.map (Fault.prolong lines)) = Fault.onlyUnterminated faults := by
  match faults with
  | [] => rfl
  | [.unexpectedCharacter _ _] => rfl
  | [.unterminatedString _] => rfl
  | _ :: _ :: _ => rfl

/-- The newlines that a text loses with the terminators at its end. -/
def newlinesDropped (source : String) : Nat :=
  source.toList.count '\n' - (withoutTerminators source).toList.count '\n'

/-- Without the terminators at its end a text is scanned as with them, but for the line on which it
ends. -/
theorem scan_withoutTerminators (source : String) :
    ∃ tokens, (scan (withoutTerminators source)).tokens =
        tokens ++ [Token.atEnd (withoutTerminators source)] ∧
      scan source = ⟨tokens ++ [Token.atEnd source],
        (scan (withoutTerminators source)).faults.map (Fault.prolong (newlinesDropped source))⟩ ∧
      (Token.atEnd source).line =
        (Token.atEnd (withoutTerminators source)).line + newlinesDropped source := by
  obtain ⟨ends, hends, heq⟩ := exists_withoutTerminators_append source
  have hlist : source.toList = (withoutTerminators source).toList ++ ends := by
    rw [← String.toList_inj, String.toList_append, String.toList_ofList] at heq
    exact heq
  have hdropped : ends.count '\n' = newlinesDropped source := by
    rw [newlinesDropped, hlist, List.count_append, Nat.add_sub_cancel_left]
  obtain ⟨tokens, ht, hscan⟩ := scan_append_terminators (withoutTerminators source) hends
  rw [← heq, hdropped] at hscan
  have hline : lineAfter source.toList =
      lineAfter (withoutTerminators source).toList + newlinesDropped source := by
    rw [hlist, lineAfter_append, hdropped]
  exact ⟨tokens, ht, hscan, hline⟩

theorem faults_withoutTerminators_eq_nil {source : String} :
    (scan (withoutTerminators source)).faults = [] ↔ (scan source).faults = [] := by
  obtain ⟨tokens, -, hscan, -⟩ := scan_withoutTerminators source
  rw [hscan, List.map_eq_nil_iff]

/-- Whether a string is all that is left open does not depend on the terminators at the end. -/
theorem onlyUnterminated_withoutTerminators (input : String) :
    Fault.onlyUnterminated (scan (withoutTerminators input)).faults =
      Fault.onlyUnterminated (scan input).faults := by
  obtain ⟨tokens, -, hscan, -⟩ := scan_withoutTerminators input
  rw [hscan, onlyUnterminated_map_prolong]

end LoxLexis
