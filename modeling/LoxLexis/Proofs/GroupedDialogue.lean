import LoxLexis.Prompt.Dialogue
import LoxLexis.Proofs.InputLines
import LoxLexis.Proofs.PromptReplies
import LoxLexis.Proofs.ShortestGroups

/-! The dialogue at the prompt as a matter of grouping its lines. -/
namespace LoxLexis

/-- The text of some lines, which goes without the terminators at its end. -/
def groupText (lines : List String) : String := withoutTerminators (String.join lines)

/-- All that is amiss in the text of the lines is that a string is open at its end. -/
def LeavesOpen (lines : List String) : Prop :=
  ∃ line, (scan (groupText lines)).faults = [.unterminatedString line]

/-- The markers before so many lines of one group. -/
def markers : Nat → String
  | 0 => ""
  | 1 => "> "
  | n + 2 => markers (n + 1) ++ "| "

private theorem markers_succ (n : Nat) :
    markers (n + 1) = markers n ++ if n = 0 then "> " else "| " := by
  cases n with
  | zero => rfl
  | succ n => simp [markers]

private theorem join_concat (lines : List String) (line : String) :
    String.join (lines ++ [line]) = String.join lines ++ line := by
  rw [String.join_append, String.join_cons, String.join_nil, String.append_empty]

namespace Output

def add (o : Output) (stdout stderr : String) : Output :=
  ⟨o.stdout ++ stdout, o.stderr ++ stderr⟩

private theorem add_empty (o : Output) : o.add "" "" = o := by
  simp [add]

theorem add_add (o : Output) (a b c d : String) :
    (o.add a b).add c d = o.add (a ++ c) (b ++ d) := by
  simp [add, String.append_assoc]

private theorem print_eq_add (o : Output) (text : String) : o.print text = o.add text "" := by
  simp [print, add]

theorem printError_eq_add (o : Output) (text : String) : o.printError text = o.add "" text := by
  simp [printError, add]

theorem printLines_eq_add (o : Output) (lines : List String) :
    o.printLines lines = o.add (String.join (lines.map (· ++ "\n"))) "" := by
  calc o.printLines lines = ⟨(o.printLines lines).stdout, (o.printLines lines).stderr⟩ := rfl
    _ = _ := by rw [stdout_printLines, stderr_printLines, add, String.append_empty]

end Output

namespace Dialogue
variable {layout : Layout} {out : Output} {held lines : List String} {line : String}

/-- The dialogue that holds some lines back, where all else has been printed before. -/
def holding (out : Output) (held : List String) : Dialogue :=
  ⟨String.join held, out.add (markers held.length) ""⟩

private theorem holding_nil (out : Output) : holding out [] = ⟨"", out⟩ := by
  rw [holding, List.length_nil, markers, Output.add_empty, String.join_nil]

private theorem isEmpty_join (hne : "" ∉ held) :
    (String.join held).isEmpty = decide (held = []) := by
  cases held with
  | nil => rfl
  | cons line held =>
    have hline : line ≠ "" := fun he => hne (he ▸ List.mem_cons_self)
    simp [String.join_cons, hline]

private theorem showMarker_holding (hne : "" ∉ held) :
    (holding out held).showMarker =
      ⟨String.join held, out.add (markers (held.length + 1)) ""⟩ := by
  rw [markers_succ, showMarker, holding, Output.print_eq_add, Output.add_add, isEmpty_join hne]
  simp

private theorem answer_eq (d : Dialogue) (r : Response) :
    d.answer r = ⟨"", d.output.add r.stdout r.stderr⟩ := by
  rw [answer, Output.printLines_eq_add, Response.stdout, Response.stderr]
  cases r.diagnostics <;> simp [Output.printError_eq_add, Output.add_add]

private theorem hear_of_leavesOpen (h : LeavesOpen (held ++ [line])) :
    hear layout ⟨String.join held, out⟩ line = ⟨String.join (held ++ [line]), out⟩ := by
  have hfaults := onlyUnterminated_iff.mpr h
  rw [groupText] at hfaults
  simp only [hear, ← join_concat, respond_eq, hfaults, Bool.and_true, if_true]

private theorem hear_of_not_leavesOpen (h : ¬ LeavesOpen (held ++ [line])) :
    hear layout ⟨String.join held, out⟩ line =
      ⟨"", out.add (reply layout (groupText (held ++ [line]))).stdout
        (reply layout (groupText (held ++ [line]))).stderr⟩ := by
  have hfaults := Bool.eq_false_iff.mpr (mt onlyUnterminated_iff.mp h)
  rw [groupText] at hfaults
  simp only [hear, ← join_concat, respond_eq, hfaults, Bool.and_false, Bool.false_eq_true, if_false,
    answer_eq, groupText]

private theorem run_held (hopen : StaysOpen LeavesOpen (held ++ lines)) (hne : "" ∉ held ++ lines)
    (rest : List (Option String)) :
    run layout (holding out held) (lines.map some ++ rest) =
      run layout (holding out (held ++ lines)) rest := by
  -- The lines that are held back grow as those to come are heard one by one.
  induction lines generalizing held with
  | nil => rw [List.append_nil]; rfl
  | cons line lines ih =>
    rw [List.append_cons] at hopen hne ⊢
    have hheld : "" ∉ held := fun hm => hne (by simp [hm])
    have hline : LeavesOpen (held ++ [line]) := hopen _ (by simp) (List.prefix_append _ _)
    have hstep : (holding out held).showMarker.hear layout line = holding out (held ++ [line]) := by
      rw [showMarker_holding hheld, hear_of_leavesOpen hline, holding, List.length_append]
      rfl
    rw [List.map_cons, List.cons_append, run, hstep, ih hopen hne]

/-- A group is replied when its last line closes it, and nothing of it is kept. -/
theorem run_group {group : List String} (h : ShortestClosed LeavesOpen group) (hne : "" ∉ group)
    (rest : List (Option String)) :
    run layout (holding out []) (group.map some ++ rest) =
      run layout (holding (out.add (markers group.length ++ (reply layout (groupText group)).stdout)
        (reply layout (groupText group)).stderr) []) rest := by
  obtain ⟨hnil, hheld, hclosed⟩ := h
  obtain ⟨held, last, rfl⟩ := (List.eq_nil_or_concat' group).resolve_left hnil
  rw [List.dropLast_concat] at hheld
  have hne' : "" ∉ held := fun hm => hne (by simp [hm])
  rw [List.map_append, List.append_assoc, @run_held layout out [] held hheld hne', List.nil_append,
    List.map_singleton, List.singleton_append, run, showMarker_holding hne',
    hear_of_not_leavesOpen hclosed, holding_nil, Output.add_add, String.empty_append,
    List.length_append, List.length_singleton]

end Dialogue

def groupsOutput (layout : Layout) (groups : List (List String)) : Output where
  stdout := String.join (groups.map fun group =>
    markers group.length ++ (reply layout (groupText group)).stdout)
  stderr := String.join (groups.map fun group => (reply layout (groupText group)).stderr)

/-- What is printed where input ends and some lines have left their group open. The end is one more
thing that is waited for, and the lines are replied as they stand. -/
def endOutput (layout : Layout) (left : List String) : Output where
  stdout := markers (left.length + 1) ++
    if left = [] then "" else "\n" ++ (reply layout (groupText left)).stdout
  stderr := if left = [] then "" else (reply layout (groupText left)).stderr

namespace Dialogue
variable {layout : Layout} {out : Output} {held : List String}

private theorem run_groups {groups : List (List String)}
    (h : ∀ group ∈ groups, ShortestClosed LeavesOpen group) (hne : "" ∉ groups.flatten)
    (rest : List (Option String)) :
    run layout (holding out []) (groups.flatten.map some ++ rest) =
      run layout (holding (out.add (groupsOutput layout groups).stdout
        (groupsOutput layout groups).stderr) []) rest := by
  induction groups generalizing out with
  | nil => simp [groupsOutput, Output.add_empty]
  | cons group groups ih =>
    rw [List.flatten_cons, List.mem_append, not_or] at hne
    rw [List.flatten_cons, List.map_append, List.append_assoc,
      run_group (h group List.mem_cons_self) hne.1,
      ih (fun g hg => h g (List.mem_cons_of_mem _ hg)) hne.2, Output.add_add]
    simp only [groupsOutput, List.map_cons, String.join_cons]

/-- All groups are gone through, and the lines that are left are held back. -/
theorem run_grouping {lines : List String} (g : Grouping LeavesOpen lines) (hne : "" ∉ lines)
    (rest : List (Option String)) :
    run layout {} (lines.map some ++ rest) =
      run layout (holding (groupsOutput layout g.closed) g.left) rest := by
  obtain ⟨closed, left, rfl, hshortest, hleft⟩ := g
  rw [List.mem_append, not_or] at hne
  have hstart : ({} : Dialogue) = holding {} [] := (holding_nil _).symm
  have hout : ({} : Output).add (groupsOutput layout closed).stdout
      (groupsOutput layout closed).stderr = groupsOutput layout closed := by
    simp [Output.add]
  rw [List.map_append, List.append_assoc, hstart, run_groups hshortest hne.1, hout,
    @run_held layout _ [] left hleft hne.2, List.nil_append]

private theorem run_nil (hne : "" ∉ held) :
    run layout (holding out held) [] =
      ⟨0, out.add (endOutput layout held).stdout (endOutput layout held).stderr⟩ := by
  rw [run, showMarker_holding hne, conclude, isEmpty_join hne, endOutput]
  by_cases hheld : held = []
  · simp [hheld, Outcome.ofEnding]
  · simp [hheld, Outcome.ofEnding, respond_eq, answer_eq, Output.print_eq_add, Output.add_add,
      groupText, String.append_assoc]

private theorem run_unreadable (hne : "" ∉ held) (rest : List (Option String)) :
    run layout (holding out held) (none :: rest) =
      ⟨66, out.add (markers (held.length + 1))
        "Error reading source file: stream did not contain valid UTF-8\n"⟩ := by
  rw [run, showMarker_holding hne, Outcome.ofEnding, Output.printError_eq_add,
    Output.printError_eq_add, Output.add_add, Output.add_add, String.append_empty,
    String.append_empty, String.empty_append]
  rfl

end Dialogue

section
variable {layout : Layout} {stdin : List UInt8} {lines : List String} {later : List (Option String)}

private theorem not_mem_of_map_decodeUtf8?
    (h : (Text.splitLines stdin).map Text.decodeUtf8? = lines.map some ++ later) : "" ∉ lines := by
  intro hm
  have hmem : some "" ∈ (Text.splitLines stdin).map Text.decodeUtf8? := by
    rw [h]
    exact List.mem_append_left _ (List.mem_map_of_mem hm)
  obtain ⟨bytes, hbytes, hdecode⟩ := List.mem_map.mp hmem
  have hlines := Text.splitLines_eq_iff.mp (Eq.refl (Text.splitLines stdin))
  exact Text.ne_empty_of_decodeUtf8? hdecode (hlines.2.ne_nil hbytes) rfl

theorem runPrompt_of_lines (g : Grouping LeavesOpen lines)
    (h : (Text.splitLines stdin).map Text.decodeUtf8? = lines.map some) :
    runPrompt layout stdin =
      ⟨0, (groupsOutput layout g.closed).add (endOutput layout g.left).stdout
        (endOutput layout g.left).stderr⟩ := by
  rw [← List.append_nil (lines.map some)] at h
  have hne := not_mem_of_map_decodeUtf8? h
  have hleft : "" ∉ g.left := fun hm => hne (g.whole ▸ List.mem_append_right _ hm)
  rw [runPrompt, h, Dialogue.run_grouping g hne, Dialogue.run_nil hleft]

private theorem runPrompt_of_unreadable (g : Grouping LeavesOpen lines)
    (h : (Text.splitLines stdin).map Text.decodeUtf8? = lines.map some ++ none :: later) :
    runPrompt layout stdin =
      ⟨66, (groupsOutput layout g.closed).add (markers (g.left.length + 1))
        "Error reading source file: stream did not contain valid UTF-8\n"⟩ := by
  have hne := not_mem_of_map_decodeUtf8? h
  have hleft : "" ∉ g.left := fun hm => hne (g.whole ▸ List.mem_append_right _ hm)
  rw [runPrompt, h, Dialogue.run_grouping g hne, Dialogue.run_unreadable hleft]

end

/-- Standard input is split into lines in the one way there is, and the lines fall into groups in
the one way there is. If all lines are text, each group is replied once, in order and by itself,
after its markers, and a group left open at the end is reported so. A line that is no text ends the
dialogue without a reply to the lines that are held back. -/
theorem runPrompt_grouped (layout : Layout) (stdin : List UInt8) :
    (∀ pieces, Text.splitLines stdin = pieces ↔
      pieces.flatten = stdin ∧ Text.InLines Text.newlineByte pieces) ∧
    ∀ lines : List String, ∃ g : Grouping LeavesOpen lines, (∀ g', g' = g) ∧
      ((Text.splitLines stdin).map Text.decodeUtf8? = lines.map some →
        runPrompt layout stdin =
          ⟨0, (groupsOutput layout g.closed).add (endOutput layout g.left).stdout
            (endOutput layout g.left).stderr⟩) ∧
      (∀ later, (Text.splitLines stdin).map Text.decodeUtf8? = lines.map some ++ none :: later →
        runPrompt layout stdin =
          ⟨66, (groupsOutput layout g.closed).add (markers (g.left.length + 1))
            "Error reading source file: stream did not contain valid UTF-8\n"⟩) ∧
      (g.left ≠ [] → ∃ line, (scan (groupText g.left)).faults = [.unterminatedString line] ∧
        (endOutput layout g.left).stderr =
          "[line " ++ line.repr ++ "] Error: Unterminated string.\n") := by
  refine ⟨fun pieces => Text.splitLines_eq_iff, fun lines => ?_⟩
  obtain ⟨g⟩ := Grouping.nonempty LeavesOpen lines
  refine ⟨g, fun g' => g'.unique g, runPrompt_of_lines g, fun later => runPrompt_of_unreadable g, ?_⟩
  intro hne
  obtain ⟨line, hfaults⟩ := g.left_open g.left hne (List.prefix_refl _)
  exact ⟨line, hfaults, by simp only [endOutput, if_neg hne, stderr_reply_of_open hfaults]⟩

/-- A string over two lines, a blank line, and a string that is left open, where input ends there or
goes on with bytes that are no text. -/
theorem runPrompt_grouped_strings :
    let lines := ["\"a\n", "b\"\n", "\n", "\"c\n"]
    let stdin := Text.encodeUtf8 (String.join lines)
    let shown := "> | STRING \"a\nb\" a\nb\nEOF  null\n> EOF  null\n> | "
    runPrompt .canonical stdin =
        ⟨0, ⟨shown ++ "\nEOF  null\n", "[line 1] Error: Unterminated string.\n"⟩⟩ ∧
      runPrompt .canonical (stdin ++ [255]) =
        ⟨66, ⟨shown, "Error reading source file: stream did not contain valid UTF-8\n"⟩⟩ := by
  intro lines stdin shown
  have hopen {line : String} (h : LeavesOpen [line]) : StaysOpen LeavesOpen [line] :=
    staysOpen_nil.concat h
  let groups : Grouping LeavesOpen lines :=
    { closed := [["\"a\n", "b\"\n"], ["\n"]]
      left := ["\"c\n"]
      whole := rfl
      shortest := by
        refine List.forall_mem_cons.mpr ⟨⟨by decide, hopen ⟨1, by decide +kernel⟩, ?_⟩,
          List.forall_mem_singleton.mpr ⟨by decide, staysOpen_nil, ?_⟩⟩ <;>
        · rw [LeavesOpen, ← onlyUnterminated_iff]
          decide +kernel
      left_open := hopen ⟨1, by decide +kernel⟩ }
  constructor
  · obtain ⟨g, hunique, hread, -⟩ := (runPrompt_grouped .canonical stdin).2 lines
    obtain rfl := hunique groups
    rw [hread (by decide +kernel)]
    dsimp only [groups]
    decide +kernel
  · obtain ⟨g, hunique, -, hstopped, -⟩ := (runPrompt_grouped .canonical (stdin ++ [255])).2 lines
    obtain rfl := hunique groups
    rw [hstopped [] (by decide +kernel)]
    dsimp only [groups]
    decide +kernel

end LoxLexis
