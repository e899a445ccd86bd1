import LoxLexis.Proofs.AcceptedArguments
import LoxLexis.Proofs.FileRuns
import LoxLexis.Proofs.StoppedReadings

/-! What arguments come down to, and what the code of a run tells. -/
namespace LoxLexis
open CommandLine

namespace Task
variable {environment : Option String} {arguments : List String} {layout : Layout}

private theorem sourceFile_eq_none_of_repl {i : Instruction} (h : Says environment arguments i)
    (hrepl : i.command = .repl) : i.sourceFile = none := by
  cases h with
  | alone | tokenize => cases hrepl
  | repl => rfl

private theorem ofInstruction_of_says {i : Instruction} (h : Says environment arguments i) :
    ofInstruction i =
      i.sourceFile.elim (holdDialogue i.layout) (scanFile · i.layout) := by
  have hrepl := sourceFile_eq_none_of_repl h
  obtain ⟨c, file, given, fromEnvironment⟩ := i
  cases c with
  | repl =>
    obtain rfl := hrepl rfl
    rfl
  | scanner | tokenize => cases file <;> rfl

private theorem ofArguments_of_ok {i : Instruction} (h : read environment arguments = .ok i) :
    ofArguments environment arguments =
      i.sourceFile.elim (holdDialogue i.layout) (scanFile · i.layout) := by
  rw [ofArguments, h]
  exact ofInstruction_of_says (read_eq_ok_iff.mp h)

private theorem ofArguments_eq_iff {task : Task} (hpage : ∀ text, task ≠ showPage text)
    (hrefuse : ∀ text, task ≠ refuse text) : ofArguments environment arguments = task ↔
      ∃ i, Says environment arguments i ∧
        i.sourceFile.elim (holdDialogue i.layout) (scanFile · i.layout) = task := by
  constructor
  · intro h
    cases hread : read environment arguments with
    | ok i =>
      rw [ofArguments_of_ok hread] at h
      exact ⟨i, read_eq_ok_iff.mp hread, h⟩
    | error stop =>
      rw [ofArguments, hread] at h
      cases stop with
      | page text => exact absurd h.symm (hpage text)
      | misuse m => exact absurd h.symm (hrefuse m.text)
  · rintro ⟨i, hi, h⟩
    rwa [ofArguments_of_ok (read_eq_ok_iff.mpr hi)]

/-- Which arguments lead to a file being scanned. -/
theorem ofArguments_eq_scanFile_iff {path : String} :
    ofArguments environment arguments = scanFile path layout ↔
      ∃ i, Says environment arguments i ∧ i.sourceFile = some path ∧ i.layout = layout := by
  rw [ofArguments_eq_iff (by simp) (by simp)]
  refine exists_congr fun i => and_congr_right fun _ => ?_
  cases i.sourceFile <;> simp

/-- Which arguments lead to a dialogue. -/
theorem ofArguments_eq_holdDialogue_iff : ofArguments environment arguments = holdDialogue layout ↔
      ∃ i, Says environment arguments i ∧ i.sourceFile = none ∧ i.layout = layout := by
  rw [ofArguments_eq_iff (by simp) (by simp)]
  refine exists_congr fun i => and_congr_right fun _ => ?_
  cases i.sourceFile <;> simp

end Task

/-- A file is scanned without a fault, or with one, or it is not scanned. -/
private theorem code_runFile_cases (layout : Layout) (file : Except ReadError (List UInt8)) :
    (∃ source, file = .ok (Text.encodeUtf8 source) ∧ (scan source).faults = [] ∧
      (runFile layout file).code = 0) ∨
    (∃ source, file = .ok (Text.encodeUtf8 source) ∧ (scan source).faults ≠ [] ∧
      (runFile layout file).code = 65) ∨
    (∀ source, file ≠ .ok (Text.encodeUtf8 source)) ∧ (runFile layout file).code = 66 := by
  cases file with
  | error cause => exact Or.inr (Or.inr ⟨nofun, by rw [runFile_error]⟩)
  | ok bytes =>
    by_cases htext : ∃ source, Text.encodeUtf8 source = bytes
    · obtain ⟨source, rfl⟩ := htext
      rw [runFile_encodeUtf8]
      by_cases hfaults : (scan source).faults = []
      · exact Or.inl ⟨source, rfl, hfaults, if_pos hfaults⟩
      · exact Or.inr (Or.inl ⟨source, rfl, hfaults, if_neg hfaults⟩)
    · have hnot := not_exists.mp htext
      refine Or.inr (Or.inr ⟨fun source h => hnot source (Except.ok.inj h).symm, ?_⟩)
      rw [runFile_of_not_text hnot, runFile_error]

private theorem Dialogue.code_run (layout : Layout) (d : Dialogue) (lines : List (Option String)) :
    (d.run layout lines).code = if none ∈ lines then 66 else 0 := by
  induction lines generalizing d with
  | nil => rfl
  | cons line rest ih =>
    cases line with
    | none => rfl
    | some line => simp [run, ih]

namespace Invocation

/-- What was asked for is shown, and nothing else is done. -/
theorem run_of_page {i : Invocation} {text : String}
    (h : read i.environment i.arguments = .error (.page text)) : i.run = ⟨0, ⟨text, ""⟩⟩ := by
  simp [run, Task.ofArguments, h, Outcome.ofEnding, Output.print]

/-- Arguments that make no sense are complained of, and nothing else is done. -/
theorem run_of_misuse {i : Invocation} {m : Misuse}
    (h : read i.environment i.arguments = .error (.misuse m)) :
    i.run = ⟨64, ⟨"", m.text ++ "\n"⟩⟩ := by
  cases isKnown_of_read_eq_error h with
  | misuse hm =>
    simp [run, Task.ofArguments, h, Outcome.ofEnding, Output.printError, hm.message_text,
      Failure.exitCode]

/-- What the code of a run tells. -/
inductive Tells (i : Invocation) : Nat → Prop where
  | page {text : String} : read i.environment i.arguments = .error (.page text) → Tells i 0
  | misuse {m : Misuse} : read i.environment i.arguments = .error (.misuse m) → Tells i 64
  | scanned {path : String} {layout : Layout} {source : String} :
      Task.ofArguments i.environment i.arguments = .scanFile path layout →
      i.files.readBytes path = .ok (Text.encodeUtf8 source) → (scan source).faults = [] → Tells i 0
  | faulty {path : String} {layout : Layout} {source : String} :
      Task.ofArguments i.environment i.arguments = .scanFile path layout →
      i.files.readBytes path = .ok (Text.encodeUtf8 source) → (scan source).faults ≠ [] →
      Tells i 65
  | unreadable {path : String} {layout : Layout} :
      Task.ofArguments i.environment i.arguments = .scanFile path layout →
      (∀ source, i.files.readBytes path ≠ .ok (Text.encodeUtf8 source)) → Tells i 66
  | heard {layout : Layout} :
      Task.ofArguments i.environment i.arguments = .holdDialogue layout →
      (∀ line ∈ Text.splitLines i.stdin, Text.decodeUtf8? line ≠ none) → Tells i 0
  | unheard {layout : Layout} {line : List UInt8} :
      Task.ofArguments i.environment i.arguments = .holdDialogue layout →
      line ∈ Text.splitLines i.stdin → Text.decodeUtf8? line = none → Tells i 66

private theorem run_of_scanFile {i : Invocation} {path : String} {layout : Layout}
    (h : Task.ofArguments i.environment i.arguments = .scanFile path layout) :
    i.run = runFile layout (i.files.readBytes path) := by
  rw [run, h]

private theorem run_of_holdDialogue {i : Invocation} {layout : Layout}
    (h : Task.ofArguments i.environment i.arguments = .holdDialogue layout) :
    i.run = runPrompt layout i.stdin := by
  rw [run, h]

private theorem exists_tells (i : Invocation) : i.Tells i.run.code := by
  cases hread : read i.environment i.arguments with
  | error stop =>
    cases stop with
    | page text =>
      rw [run_of_page hread]
      exact .page hread
    | misuse m =>
      rw [run_of_misuse hread]
      exact .misuse hread
  | ok instruction =>
    cases htask : Task.ofArguments i.environment i.arguments with
    | showPage text | refuse text =>
      rw [Task.ofArguments_of_ok hread] at htask
      cases hfile : instruction.sourceFile <;> simp [hfile] at htask
    | scanFile path layout =>
      rw [run_of_scanFile htask]
      rcases code_runFile_cases layout (i.files.readBytes path) with
        ⟨source, hfile, hfaults, hcode⟩ | ⟨source, hfile, hfaults, hcode⟩ | ⟨hfile, hcode⟩ <;>
        rw [hcode]
      · exact .scanned htask hfile hfaults
      · exact .faulty htask hfile hfaults
      · exact .unreadable htask hfile
    | holdDialogue layout =>
      rw [run_of_holdDialogue htask, runPrompt, Dialogue.code_run]
      split
      case isTrue hnone =>
        obtain ⟨line, hline, hdecode⟩ := List.mem_map.mp hnone
        exact .unheard htask hline hdecode
      case isFalse hsome =>
        exact .heard htask fun line hline hdecode => hsome (List.mem_map.mpr ⟨line, hline, hdecode⟩)

theorem code_run_eq_iff (i : Invocation) (code : Nat) : i.run.code = code ↔ i.Tells code := by
  constructor
  · rintro rfl
    exact i.exists_tells
  · intro h
    cases h with
    | page hread => rw [run_of_page hread]
    | misuse hread => rw [run_of_misuse hread]
    | scanned htask hfile hfaults =>
      rw [run_of_scanFile htask, hfile, runFile_encodeUtf8, if_pos hfaults]
    | faulty htask hfile hfaults =>
      rw [run_of_scanFile htask, hfile, runFile_encodeUtf8, if_neg hfaults]
    | unreadable htask hfile =>
      rw [run_of_scanFile htask]
      rcases code_runFile_cases _ (i.files.readBytes _) with
        ⟨source, hsource, -⟩ | ⟨source, hsource, -⟩ | ⟨-, hcode⟩
      · exact absurd hsource (hfile source)
      · exact absurd hsource (hfile source)
      · exact hcode
    | heard htask hlines =>
      rw [run_of_holdDialogue htask, runPrompt, Dialogue.code_run, if_neg]
      intro hnone
      obtain ⟨line, hline, hdecode⟩ := List.mem_map.mp hnone
      exact hlines line hline hdecode
    | unheard htask hline hdecode =>
      rw [run_of_holdDialogue htask, runPrompt, Dialogue.code_run,
        if_pos (List.mem_map.mpr ⟨_, hline, hdecode⟩)]

end Invocation
end LoxLexis
