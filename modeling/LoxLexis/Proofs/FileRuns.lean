import LoxLexis.Program
import LoxLexis.Proofs.GroupedDialogue
import LoxLexis.Proofs.MaximalMunch

/-! What a run over one file leaves behind. -/
namespace LoxLexis

def listing (layout : Layout) (tokens : List Token) : String :=
  String.join (tokens.map fun t => t.render layout ++ "\n")

/-- What is said of a fault, on a line of its own. -/
def Fault.reportLine (f : Fault) : String :=
  "[line " ++ f.line.repr ++ "] Error: " ++ f.message ++ "\n"

theorem Fault.newline_not_mem_report (f : Fault) : '\n' ∉ f.report.toList := by
  have hline : '\n' ∉ f.line.repr.toList := by
    intro hm
    exact absurd ((digits_repr f.line).2 _ hm) (by decide)
  have hmessage : '\n' ∉ f.message.toList := by
    cases f with
    | unexpectedCharacter => exact (by decide : '\n' ∉ "Unexpected character.".toList)
    | unterminatedString => exact (by decide : '\n' ∉ "Unterminated string.".toList)
  simp only [report, String.toList_append, List.mem_append, hline, hmessage, or_false]
  decide

private theorem intercalate_append_newline {texts : List String} (h : texts ≠ []) :
    "\n".intercalate texts ++ "\n" = String.join (texts.map (· ++ "\n")) := by
  induction texts with
  | nil => exact absurd rfl h
  | cons text texts ih =>
    rw [List.map_cons, String.join_cons]
    by_cases hne : texts = []
    · subst hne
      simp
    · rw [String.intercalate_cons_of_ne_nil hne, String.append_assoc, ih hne]

private theorem reports_append_newline {faults : List Fault} (h : faults ≠ []) :
    Fault.reports faults ++ "\n" = String.join (faults.map Fault.reportLine) := by
  have hne : faults.map Fault.report ≠ [] := by simpa using h
  rw [Fault.reports, intercalate_append_newline hne, List.map_map]
  rfl

private theorem inLines_reportLine (faults : List Fault) :
    Text.InLines '\n' (faults.map fun f => f.reportLine.toList) := by
  induction faults with
  | nil => exact .nil
  | cons f faults ih =>
    have hline : f.reportLine.toList = f.report.toList ++ ['\n'] := String.toList_append
    rw [List.map_cons, hline]
    exact .cons f.newline_not_mem_report ih

theorem runText_eq (layout : Layout) (source : String) :
    runText layout source =
      ⟨if (scan source).faults = [] then 0 else 65,
        ⟨listing layout (scan source).tokens,
          String.join ((scan source).faults.map Fault.reportLine)⟩⟩ := by
  have hprinted : ({} : Output).printLines ((scan source).tokens.map (Token.render layout)) =
      ⟨listing layout (scan source).tokens, ""⟩ := by
    rw [Output.printLines_eq_add, List.map_map]
    simp [Output.add, listing, Function.comp_def]
  simp only [runText, hprinted, List.isEmpty_iff]
  by_cases hfaults : (scan source).faults = []
  · rw [if_pos hfaults, if_pos hfaults, hfaults]
    rfl
  · rw [if_neg hfaults, if_neg hfaults, ← reports_append_newline hfaults, Outcome.ofEnding,
      Output.printError_eq_add, Output.printError_eq_add, Output.add_add]
    simp only [Output.add, String.append_empty, String.empty_append]
    rfl

theorem runFile_encodeUtf8 (layout : Layout) (source : String) :
    runFile layout (.ok (Text.encodeUtf8 source)) =
      ⟨if (scan source).faults = [] then 0 else 65,
        ⟨listing layout (scan source).tokens,
          String.join ((scan source).faults.map Fault.reportLine)⟩⟩ := by
  simp only [runFile, Text.decodeUtf8?_encodeUtf8, runText_eq]

theorem runFile_of_not_text {bytes : List UInt8} (h : ∀ source, Text.encodeUtf8 source ≠ bytes)
    (layout : Layout) : runFile layout (.ok bytes) = runFile layout (.error .invalidUtf8) := by
  simp only [runFile, Text.decodeUtf8?_eq_none_iff.mpr h]

theorem runFile_error (layout : Layout) (cause : ReadError) :
    runFile layout (.error cause) =
      ⟨66, ⟨"", "Error reading source file: " ++ cause.message ++ "\n"⟩⟩ := by
  rw [runFile, Outcome.ofEnding, Output.printError_eq_add, Output.printError_eq_add, Output.add_add]
  simp only [Output.add, String.append_empty, String.empty_append]
  rfl

/-- The layout has a say in how each token is shown, and in nothing else. -/
theorem exists_runFile_eq (file : Except ReadError (List UInt8)) :
    ∃ tokens code stderr, ∀ layout,
      runFile layout file = ⟨code, ⟨listing layout tokens, stderr⟩⟩ := by
  have hunread (cause : ReadError) : ∃ tokens code stderr, ∀ layout,
      runFile layout (.error cause) = ⟨code, ⟨listing layout tokens, stderr⟩⟩ :=
    ⟨[], _, _, fun layout => runFile_error layout cause⟩
  cases file with
  | error cause => exact hunread cause
  | ok bytes =>
    by_cases htext : ∃ source, Text.encodeUtf8 source = bytes
    · obtain ⟨source, rfl⟩ := htext
      exact ⟨_, _, _, fun layout => runFile_encodeUtf8 layout source⟩
    · obtain ⟨tokens, code, stderr, h⟩ := hunread .invalidUtf8
      refine ⟨tokens, code, stderr, fun layout => ?_⟩
      rw [runFile_of_not_text (not_exists.mp htext), h]

/-- Of a file that cannot be read or is no text only that is said. Of every other file the tokens
are listed up to the end, whatever is wrong with the text, and then each fault has one line in the
error output. The code tells which of the three it was. The layout changes how the tokens are shown,
and nothing else. -/
theorem runFile_outcome :
    (∀ (layout : Layout) (cause : ReadError), runFile layout (.error cause) =
      ⟨66, ⟨"", "Error reading source file: " ++ cause.message ++ "\n"⟩⟩) ∧
    (∀ (layout : Layout) (bytes : List UInt8), (∀ source, Text.encodeUtf8 source ≠ bytes) →
      runFile layout (.ok bytes) =
        ⟨66, ⟨"", "Error reading source file: stream did not contain valid UTF-8\n"⟩⟩) ∧
    (∀ source, ∃ tokens code stderr,
      (scan source).tokens = tokens ++ [Token.atEnd source] ∧
      (∀ layout, runFile layout (.ok (Text.encodeUtf8 source)) =
        ⟨code, ⟨listing layout (tokens ++ [Token.atEnd source]), stderr⟩⟩) ∧
      stderr = String.join ((scan source).faults.map Fault.reportLine) ∧
      Text.InLines '\n' ((scan source).faults.map fun f => f.reportLine.toList) ∧
      (stderr = "" ∧ code = 0 ↔ (scan source).faults = []) ∧
      (code = 65 ↔ (scan source).faults ≠ [])) ∧
    (∀ file, ∃ tokens code stderr, ∀ layout,
      runFile layout file = ⟨code, ⟨listing layout tokens, stderr⟩⟩) ∧
    ∀ (i : Invocation) (path : String) (layout : Layout),
      Task.ofArguments i.environment i.arguments = .scanFile path layout →
        i.run = runFile layout (i.files.readBytes path) := by
  refine ⟨runFile_error, fun layout bytes h => ?_, fun source => ?_, exists_runFile_eq,
    fun i path layout h => ?_⟩
  · rw [runFile_of_not_text h, runFile_error]
    rfl
  · obtain ⟨tokens, ht, -⟩ := munch_scan source
    have hrun (layout : Layout) := runFile_encodeUtf8 layout source
    rw [ht] at hrun
    refine ⟨tokens, _, _, ht, hrun, rfl, inLines_reportLine _, ?_, ?_⟩
    · by_cases hfaults : (scan source).faults = [] <;> simp [hfaults]
    · by_cases hfaults : (scan source).faults = [] <;> simp [hfaults]
  · rw [Invocation.run, h]

/-- Two faults around a string over two lines, and a file that is no text. -/
theorem runFile_outcome_faulty :
    let bytes := Text.encodeUtf8 "@ \"a\nb\"\n\"c"
    let i : Invocation :=
      ⟨["tokenize", "a", "--format", "canonical"], none, ⟨[(["a"], .file bytes)]⟩, []⟩
    Task.ofArguments i.environment i.arguments = .scanFile "a" .canonical ∧
      i.run = ⟨65, ⟨"STRING \"a\nb\" a\nb\nEOF  null\n",
        "[line 1] Error: Unexpected character.\n[line 3] Error: Unterminated string.\n"⟩⟩ ∧
      (∀ source, Text.encodeUtf8 source ≠ [97, 255]) ∧
      runFile .display (.ok [97, 255]) =
        ⟨66, ⟨"", "Error reading source file: stream did not contain valid UTF-8\n"⟩⟩ := by
  intro bytes i
  have htask : Task.ofArguments i.environment i.arguments = .scanFile "a" .canonical := by
    decide +kernel
  have hsplit : "a".splitOn "/" = ["a"] := by
    rw [String.splitOn, if_neg (by decide), String.splitOnAux, String.splitOnAux]
    decide +kernel
  have hread : i.files.readBytes "a" = .ok bytes := by
    rw [FileTree.readBytes, FileTree.resolve, hsplit]
    decide +kernel
  have hbytes : ∀ source, Text.encodeUtf8 source ≠ [97, 255] :=
    Text.decodeUtf8?_eq_none_iff.mp (by decide +kernel)
  refine ⟨htask, ?_, hbytes, runFile_outcome.2.1 .display _ hbytes⟩
  rw [runFile_outcome.2.2.2.2 i _ _ htask, hread]
  decide +kernel

end LoxLexis
