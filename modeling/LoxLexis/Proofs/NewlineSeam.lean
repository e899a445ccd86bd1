import LoxLexis.Proofs.JoinedTexts
import LoxLexis.Proofs.MendableText
import LoxLexis.Proofs.PrintedTokens

/-! Where a newline between two texts keeps their scans apart. -/
namespace LoxLexis

private theorem Fault.any_isUnterminated_eq_false_iff {faults : List Fault} :
    faults.any Fault.isUnterminated = false ↔ ∀ line, .unterminatedString line ∉ faults := by
  rw [List.any_eq_false]
  constructor
  · intro h line hm
    exact h _ hm rfl
  · intro h f hf
    cases f with
    | unexpectedCharacter => exact Bool.false_ne_true
    | unterminatedString line => exact absurd hf (h line)

private theorem filter_tokens_of_eq {source : String} {tokens : List Token}
    (h : (scan source).tokens = tokens ++ [Token.atEnd source]) :
    ((scan source).tokens.filter fun t => t.kind != .endOfInput) = tokens := by
  obtain ⟨found, hfound, hm⟩ := munch_scan source
  obtain rfl := List.append_cancel_right (hfound.symm.trans h)
  have hkept : ∀ t ∈ found, (t.kind != .endOfInput) = true := by
    intro t ht
    have hwell : Denotes t.lexeme.toList t.kind t.literal := hm.wellFormed t ht
    exact bne_iff_ne.mpr hwell.kind_ne_endOfInput
  rw [h, List.filter_append, List.filter_eq_self.mpr hkept]
  exact List.append_nil found

private theorem faults_append_newline_ne {first : String} {line : Nat}
    (h : .unterminatedString line ∈ (scan first).faults) (second : String) (others : List Fault) :
    (scan (first ++ "\n" ++ second)).faults ≠ (scan first).faults ++ others := by
  intro hfaults
  have hlast := Reader.dropLast_found .code [] (first ++ "\n" ++ second).toList
  rw [← faults_eq_found, hfaults, Fault.any_isUnterminated_eq_false_iff] at hlast
  have hothers : others = [] := by
    by_contra hne
    rw [List.dropLast_append_of_ne_nil hne] at hlast
    exact hlast line (List.mem_append_left _ h)
  rw [hothers, List.append_nil] at hfaults
  have hfirst := line_of_mem_faults h
  have hwhole := line_of_mem_faults (hfaults ▸ h)
  simp only [lineAfter, String.toList_append, List.count_append] at hfirst hwhole
  have hnewline : "\n".toList.count '\n' = 1 := rfl
  omega

/-- The scan of two texts with a newline between them is the scan of the first without its end and
then the scan of the second, on later lines, if and only if the first leaves no string open. -/
theorem scan_append_newline_iff (first second : String) :
    let lines := first.toList.count '\n' + 1
    scan (first ++ "\n" ++ second) =
        ⟨((scan first).tokens.filter fun t => t.kind != .endOfInput) ++
            (scan second).tokens.map (Token.later lines),
          (scan first).faults ++ (scan second).faults.map (Fault.later lines)⟩ ↔
      ∀ line, .unterminatedString line ∉ (scan first).faults := by
  intro lines
  constructor
  · intro hscan line hopen
    exact faults_append_newline_ne hopen second _ (congrArg Scan.faults hscan)
  · intro hclosed
    rw [← Fault.any_isUnterminated_eq_false_iff] at hclosed
    obtain ⟨tokens, ht, -, hscan⟩ := scan_append_newline hclosed second
    rw [hscan, filter_tokens_of_eq ht]

end LoxLexis
