import LoxLexis.Proofs.MendableText
import LoxLexis.Proofs.ShownTokens

/-! What a reply at the end of input loses with all the line terminators at its end but the last. -/
namespace LoxLexis

/-- The input without the newline at its end and the carriage return right before that. -/
def withoutLastTerminator (input : String) : String :=
  match input.toList.reverse with
  | '\n' :: '\r' :: rest => String.ofList rest.reverse
  | '\n' :: rest => String.ofList rest.reverse
  | _ => input

private theorem exists_withoutLastTerminator_append (input : String) :
    ∃ ends : List Char, (∀ c ∈ ends, Text.isLineTerminator c = true) ∧
      input = withoutLastTerminator input ++ String.ofList ends := by
  have hlist (ends rest : List Char) (h : input.toList.reverse = ends ++ rest) :
      input = String.ofList rest.reverse ++ String.ofList ends.reverse := by
    rw [← String.ofList_append, ← List.reverse_append, ← h, List.reverse_reverse,
      String.ofList_toList]
  rw [withoutLastTerminator]
  split
  · rename_i rest h
    exact ⟨['\r', '\n'], by simp [Text.isLineTerminator], hlist ['\n', '\r'] rest h⟩
  · rename_i rest _ h
    exact ⟨['\n'], by simp [Text.isLineTerminator], hlist ['\n'] rest h⟩
  · exact ⟨[], by simp, by simp⟩

private theorem withoutTerminators_withoutLastTerminator (input : String) :
    withoutTerminators (withoutLastTerminator input) = withoutTerminators input := by
  obtain ⟨ends, hends, heq⟩ := exists_withoutLastTerminator_append input
  have hwhole := withoutTerminators_append (withoutLastTerminator input) hends
  rw [← heq] at hwhole
  exact hwhole.symm

namespace Fault

private theorem prolong_zero (f : Fault) : f.prolong 0 = f := by
  cases f <;> rfl

private theorem map_prolong_eq_self {faults : List Fault} (h : faults.any isUnterminated = false)
    (lines : Nat) : faults.map (prolong lines) = faults := by
  have hself (f : Fault) (hf : f ∈ faults) : f.prolong lines = id f := by
    cases f with
    | unexpectedCharacter => rfl
    | unterminatedString => exact absurd rfl (List.any_eq_false.mp h _ hf)
  rw [List.map_congr_left hself, List.map_id]

private theorem reports_concat_inj {faults : List Fault} {f g : Fault} :
    reports (faults ++ [f]) = reports (faults ++ [g]) ↔ f.report = g.report := by
  by_cases hne : faults = []
  · subst hne
    simp [reports]
  · have hmap : faults.map report ≠ [] := by simpa using hne
    simp [reports, String.intercalate_append_of_ne_nil hmap]

end Fault

private theorem eq_zero_of_reports_prolong {source : String} {lines : Nat}
    (hopen : (scan source).faults.any Fault.isUnterminated = true)
    (h : Fault.reports ((scan source).faults.map (Fault.prolong lines)) =
      Fault.reports (scan source).faults) : lines = 0 := by
  -- Only the last fault can be an open string, so only the last report changes.
  have hlast := Reader.dropLast_found .code [] source.toList
  rw [← faults_eq_found] at hlast
  generalize (scan source).faults = faults at hopen h hlast
  obtain ⟨init, f, rfl⟩ := (List.eq_nil_or_concat' faults).resolve_left fun hnil => by
    subst hnil
    cases hopen
  rw [List.dropLast_concat] at hlast
  rw [List.any_append, hlast, Bool.false_or, List.any_cons, List.any_nil, Bool.or_false] at hopen
  rw [List.map_append, List.map_singleton, Fault.map_prolong_eq_self hlast,
    Fault.reports_concat_inj] at h
  cases f with
  | unexpectedCharacter => cases hopen
  | unterminatedString line =>
    simp only [Fault.prolong, Fault.report, Fault.message, Fault.line, String.append_left_inj,
      String.append_right_inj] at h
    exact Nat.add_eq_left.mp (Nat.repr_injective h)

/-- The terminators at the end of a text make no difference to the reply where they hold no newline,
or where no line of the end is shown. -/
theorem reply_withoutTerminators_iff (layout : Layout) (source : String) :
    reply layout (withoutTerminators source) = reply layout source ↔
      newlinesDropped source = 0 ∨ layout = .canonical ∧
        (scan (withoutTerminators source)).faults.any Fault.isUnterminated = false := by
  obtain ⟨tokens, ht, hscan, hline⟩ := scan_withoutTerminators source
  generalize withoutTerminators source = shown at ht hscan hline ⊢
  have hcontent : (Token.atEnd source).content = (Token.atEnd shown).content := rfl
  constructor
  · intro hreply
    rw [reply, reply, hscan, ht] at hreply
    obtain ⟨htokens, hreports⟩ := Response.mk.inj hreply
    by_cases hlayout : layout = .canonical
    · cases hopen : (scan shown).faults.any Fault.isUnterminated with
      | false => exact Or.inr ⟨hlayout, rfl⟩
      | true =>
        have hne : (scan shown).faults.isEmpty = false := by
          rw [List.isEmpty_eq_false_iff]
          intro hnil
          rw [hnil] at hopen
          cases hopen
        rw [List.isEmpty_map, hne] at hreports
        exact Or.inl (eq_zero_of_reports_prolong hopen (Option.some.inj hreports).symm)
    · rw [List.map_append, List.map_append, List.append_cancel_left_eq] at htokens
      have hrender := (List.cons.inj htokens).1
      obtain ⟨-, hsame⟩ := ((occurs_atEnd source).render_eq_iff (occurs_atEnd shown)).mp hrender.symm
      rw [hline] at hsame
      exact Or.inl (Nat.add_eq_left.mp (hsame.resolve_left hlayout))
  · intro hsame
    have hfaults : (scan shown).faults.map (Fault.prolong (newlinesDropped source)) =
        (scan shown).faults := by
      rcases hsame with hzero | ⟨-, hnone⟩
      · rw [hzero, List.map_congr_left fun f _ => f.prolong_zero, List.map_id']
      · exact Fault.map_prolong_eq_self hnone _
    have hend : (Token.atEnd source).render layout = (Token.atEnd shown).render layout := by
      apply Token.render_congr hcontent
      rcases hsame with hzero | ⟨hlayout, -⟩
      · exact Or.inr (by rw [hline, hzero, Nat.add_zero])
      · exact Or.inl hlayout
    rw [reply, reply, hscan, hfaults, ht, List.map_append, List.map_append, List.map_singleton,
      List.map_singleton, hend]

/-- At the end of input the reply is to the input without any line terminator at its end. Nothing
that a scan finds depends on them but the line of the end, on which an open string is reported too.
So the reply is the one to the input without its last terminator just where the others hold no
newline, or where no line of the end is shown. -/
theorem respond_at_end (layout : Layout) (input : String) :
    let shown := withoutTerminators input
    let whole := withoutLastTerminator input
    let skipped := whole.toList.count '\n' - shown.toList.count '\n'
    respond layout input false = some (reply layout shown) ∧
      (∃ tokens faults, scan shown = ⟨tokens ++ [Token.atEnd shown], faults⟩ ∧
        scan whole = ⟨tokens ++ [Token.atEnd whole], faults.map (Fault.prolong skipped)⟩ ∧
        (Token.atEnd whole).line = (Token.atEnd shown).line + skipped) ∧
      (respond layout input false = some (reply layout whole) ↔
        skipped = 0 ∨
          layout = .canonical ∧ (scan shown).faults.any Fault.isUnterminated = false) := by
  intro shown whole skipped
  have hshown : withoutTerminators whole = shown := withoutTerminators_withoutLastTerminator input
  have hskipped : newlinesDropped whole = skipped := by
    rw [newlinesDropped, hshown]
  have hrespond : respond layout input false = some (reply layout shown) := respond_eq _ _ _
  obtain ⟨tokens, ht, hscan, hline⟩ := scan_withoutTerminators whole
  have hreply := reply_withoutTerminators_iff layout whole
  rw [hshown, hskipped] at hscan hline hreply
  rw [hshown] at ht
  refine ⟨hrespond, ⟨tokens, _, Scan.ext ht rfl, hscan, hline⟩, ?_⟩
  rw [hrespond, Option.some.injEq, hreply]

/-- A blank line in a string that is open where input ends moves the end by a line, but not in the
reply. -/
theorem respond_open_string_blank_line :
    respond .display "\"abc\n\n" false =
        some ⟨["Token(type=EOF, lexeme='', literal=None, line=1)"],
          some "[line 1] Error: Unterminated string."⟩ ∧
      reply .display (withoutLastTerminator "\"abc\n\n") =
        ⟨["Token(type=EOF, lexeme='', literal=None, line=2)"],
          some "[line 2] Error: Unterminated string."⟩ := by
  decide +kernel

end LoxLexis
