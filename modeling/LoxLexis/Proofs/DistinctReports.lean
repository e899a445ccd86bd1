import LoxLexis.Failure
import LoxLexis.Proofs.FileRuns
import LoxLexis.Proofs.ShownTokens

/-! The reports of faults, one a line, tell how many faults there are, and of each the sort and the
line. -/
namespace LoxLexis
namespace Fault
variable {f g : Fault} {faults others : List Fault}

/-- Faults of one sort on one line. The character that was not expected is never shown. -/
def Alike (f g : Fault) : Prop := f.isUnterminated = g.isUnterminated ∧ f.line = g.line

private theorem message_eq (f : Fault) :
    f.message = if f.isUnterminated then "Unterminated string." else "Unexpected character." := by
  cases f <;> rfl

private theorem message_inj (h : f.message = g.message) : f.isUnterminated = g.isUnterminated := by
  rw [message_eq, message_eq] at h
  cases hf : f.isUnterminated <;> cases hg : g.isUnterminated
  case false.false | true.true => rfl
  case false.true | true.false =>
    rw [hf, hg] at h
    exact absurd h (by decide)

/-- A report tells the line by the digits in front of the bracket, and the sort by what is said. -/
theorem report_eq_iff : f.report = g.report ↔ Alike f g := by
  constructor
  · intro h
    have hbracket : "] Error: ".toList = ']' :: " Error: ".toList := rfl
    have hlist := congrArg String.toList h
    simp only [report, String.toList_append, List.append_assoc, hbracket, List.cons_append] at hlist
    obtain ⟨hline, hrest⟩ := repr_append_inj rfl (List.append_cancel_left hlist)
    have hmessage := String.toList_inj.mp (List.append_cancel_left hrest)
    exact ⟨message_inj hmessage, hline⟩
  · rintro ⟨hsort, hline⟩
    rw [report, report, message_eq, message_eq, hsort, hline]

private theorem map_report_eq_iff :
    faults.map report = others.map report ↔ List.Forall₂ Alike faults others := by
  rw [← List.forall₂_eq_eq_eq, List.forall₂_map_left_iff, List.forall₂_map_right_iff]
  simp only [report_eq_iff]

private theorem split_reports (faults : List Fault) :
    ((reports faults).split '\n').toList.map String.Slice.copy =
      if faults = [] then [""] else faults.map report := by
  have hnewline : ∀ text ∈ faults.map report, '\n' ∉ text.toList := by
    intro text htext
    obtain ⟨f, -, rfl⟩ := List.mem_map.mp htext
    exact f.newline_not_mem_report
  have hsplit := String.toList_split_intercalate hnewline
  simp only [List.map_eq_nil_iff] at hsplit
  exact hsplit

private theorem report_ne_empty (f : Fault) : f.report ≠ "" := by
  intro h
  have hlist := congrArg String.toList h
  simp [report] at hlist

private theorem reports_eq_empty_iff : reports faults = "" ↔ faults = [] := by
  constructor
  · intro h
    have hlines := split_reports faults
    by_contra hne
    rw [h, if_neg hne] at hlines
    have hone := split_reports []
    rw [if_pos rfl] at hone
    have hreport : faults.map report = [""] := hlines.symm.trans hone
    obtain ⟨f, rfl, hf⟩ := List.map_eq_singleton_iff.mp hreport
    exact f.report_ne_empty hf
  · rintro rfl
    rfl

private theorem reports_eq_iff :
    reports faults = reports others ↔ List.Forall₂ Alike faults others := by
  rw [← map_report_eq_iff]
  constructor
  · intro h
    by_cases hnil : faults = []
    · have hothers : others = [] := by rw [← reports_eq_empty_iff, ← h, hnil]; rfl
      rw [hnil, hothers]
    · have hothers : others ≠ [] := by
        rwa [Ne, ← reports_eq_empty_iff, ← h, reports_eq_empty_iff]
      have hlines := split_reports faults
      rw [h, split_reports, if_neg hnil, if_neg hothers] at hlines
      exact hlines.symm
  · intro h
    rw [reports, reports, h]

private theorem getLast?_reports (h : faults ≠ []) :
    (reports faults).toList.getLast? = some '.' := by
  have hstop (f : Fault) : f.report.toList.getLast? = some '.' := by
    have hmessage : f.message.toList.getLast? = some '.' := by
      rw [message_eq]
      split <;> decide
    rw [report, String.toList_append, List.getLast?_append, hmessage, Option.some_or]
  obtain ⟨init, f, rfl⟩ := (List.eq_nil_or_concat' faults).resolve_left h
  by_cases hinit : init = []
  · subst hinit
    exact hstop f
  · have hmap : init.map report ≠ [] := by simpa using hinit
    rw [reports, List.map_append, String.intercalate_append_of_ne_nil hmap (by simp),
      List.map_singleton, String.intercalate_singleton, String.toList_append,
      List.getLast?_append, hstop, Option.some_or]

end Fault

/-- What is said of faults is the same only of as many faults, each on the same line and of the same
sort as the one in its place. Nothing is said where there are none. Otherwise each has a line of
the text, in order, which shows the line of the source and says what is wrong, and no newline ends
the text. -/
theorem message_faulty (faults others : List Fault) :
    let text := (Failure.faulty faults).message
    (text = (Failure.faulty others).message ↔ List.Forall₂ Fault.Alike faults others) ∧
      (text = "" ↔ faults = []) ∧
      (text.split '\n').toList.map String.Slice.copy =
        (if faults = [] then [""] else faults.map fun f =>
          "[line " ++ f.line.repr ++ "] Error: " ++
            if f.isUnterminated then "Unterminated string." else "Unexpected character.") ∧
      text.toList.getLast? ≠ some '\n' := by
  intro text
  refine ⟨Fault.reports_eq_iff, Fault.reports_eq_empty_iff, ?_, ?_⟩
  · have hreport (f : Fault) : "[line " ++ f.line.repr ++ "] Error: " ++
        (if f.isUnterminated then "Unterminated string." else "Unexpected character.") =
          f.report := by
      rw [← Fault.message_eq]
      rfl
    simp only [hreport]
    exact Fault.split_reports faults
  · by_cases hnil : faults = []
    · subst hnil
      exact (by decide : "".toList.getLast? ≠ some '\n')
    · have hstop : text.toList.getLast? = some '.' := Fault.getLast?_reports hnil
      rw [hstop]
      decide

end LoxLexis
