import LoxLexis.Proofs.GroupedDialogue
import LoxLexis.Proofs.JoinedTexts
import LoxLexis.Proofs.MendableText

/-! The groups of a dialogue, each scanned by itself, and one scan of the whole text. -/
namespace LoxLexis

/-- What a scan finds in a text: its tokens without their lines, and without any that marks an
end. -/
def contents (source : String) : List (Kind × String × Option Literal) :=
  ((scan source).tokens.filter fun t => t.kind != .endOfInput).map Token.content

/-- The part of the source up to a newline that is cut out by itself, and so within no string. -/
def EndsLine (source part : String) : Prop :=
  ∃ done later, cuts source = done ++ ['\n'] :: later ∧ part.toList = (done ++ [['\n']]).flatten

private theorem contents_of_tokens_eq {source whole : String} {tokens : List Token}
    (h : (scan source).tokens = tokens ++ [Token.atEnd whole]) :
    contents source =
      (tokens.filter fun t => t.kind != .endOfInput).map Token.content := by
  rw [contents, h, List.filter_append]
  simp [Token.atEnd]

private theorem scan_empty : scan "" = ⟨[Token.atEnd ""], []⟩ := by
  have h : Munch [] "".toList [] [] [] := .done
  exact h.scan_eq

private theorem contents_empty : contents "" = [] := by
  rw [contents, scan_empty]
  rfl

private theorem contents_withoutTerminators (source : String) :
    contents (withoutTerminators source) = contents source := by
  obtain ⟨tokens, ht, hscan, -⟩ := scan_withoutTerminators source
  rw [contents_of_tokens_eq ht, contents_of_tokens_eq (congrArg Scan.tokens hscan)]

private theorem contents_append_newline {first second : String} (h : (scan first).faults = []) :
    contents (first ++ "\n" ++ second) = contents first ++ contents second := by
  obtain ⟨tokens, ht, -, hscan⟩ := scan_append_newline (by rw [h]; rfl) second
  rw [contents, hscan, contents_of_tokens_eq ht, List.filter_append, List.map_append,
    List.filter_map, List.map_map]
  rfl

section
variable {group others : List String}

private theorem faults_of_not_leavesOpen {more : String} (hclosed : ¬ LeavesOpen group)
    (h : (scan (String.join group ++ more)).faults.all Fault.isUnterminated = true) :
    (scan (groupText group)).faults = [] := by
  rw [groupText, faults_withoutTerminators_eq_nil]
  by_contra hne
  have honly := (onlyUnterminated_scan_iff _).mpr ⟨hne, all_isUnterminated_of_append h⟩
  rw [← onlyUnterminated_withoutTerminators] at honly
  exact hclosed (onlyUnterminated_iff.mp honly)

private theorem scan_group_append (hne : group ≠ [])
    (hlines : Text.InLines '\n' ((group ++ others).map String.toList))
    (h : (scan (groupText group)).faults = []) :
    contents (String.join (group ++ others)) =
        contents (groupText group) ++ contents (String.join others) ∧
      (scan (String.join (group ++ others))).faults.map Fault.isUnterminated =
        (scan (String.join others)).faults.map Fault.isUnterminated ∧
      (others ≠ [] → ∃ done, (String.join group).toList = (done ++ [['\n']]).flatten ∧
        cuts (String.join (group ++ others)) = done ++ ['\n'] :: cuts (String.join others)) := by
  rw [groupText] at h ⊢
  by_cases hothers : others = []
  · subst hothers
    rw [List.append_nil, String.join_nil, contents_empty, List.append_nil,
      contents_withoutTerminators, faults_withoutTerminators_eq_nil.mp h, scan_empty]
    exact ⟨rfl, rfl, fun hne => absurd rfl hne⟩
  · -- A group that others follow ends with a newline, and there the scans come apart.
    obtain ⟨first, hfirst⟩ := Text.exists_join_eq_append_newline hlines hne hothers
    have htrim : withoutTerminators (first ++ "\n") = withoutTerminators first :=
      @withoutTerminators_append first ['\n'] (by simp [Text.isLineTerminator])
    rw [hfirst, htrim] at h
    have hfaults := faults_withoutTerminators_eq_nil.mp h
    have hnone : (scan first).faults.any Fault.isUnterminated = false := by
      rw [hfaults]
      rfl
    obtain ⟨tokens, -, hcuts, hscan⟩ := scan_append_newline hnone (String.join others)
    obtain ⟨_, -, hm⟩ := munch_scan first
    rw [String.join_append, hfirst, htrim, contents_withoutTerminators, hscan, hfaults]
    refine ⟨contents_append_newline hfaults, ?_, fun _ => ⟨cuts first, ?_, hcuts⟩⟩
    · rw [List.nil_append, List.map_map]
      exact List.map_congr_left fun f _ => f.isUnterminated_later _
    · simp [hm.flatten_pieces.1]

end

private theorem EndsLine.append {part rest : String} {done : List (List Char)} {source : String}
    (hpart : part.toList = (done ++ [['\n']]).flatten)
    (hcuts : cuts source = done ++ ['\n'] :: cuts rest) {later : String} (h : EndsLine rest later) :
    EndsLine source (part ++ later) := by
  obtain ⟨done', after, hrest, hlater⟩ := h
  refine ⟨done ++ ['\n'] :: done', after, ?_, ?_⟩
  · rw [hcuts, hrest, List.append_assoc, List.cons_append]
  · rw [String.toList_append, hpart, hlater]
    simp

/-- All closed groups are without fault, and each is scanned apart from what follows it. -/
theorem scan_closed_groups {closed : List (List String)} {left : List String}
    (hclosed : ∀ group ∈ closed, ShortestClosed LeavesOpen group)
    (hlines : Text.InLines '\n' ((closed.flatten ++ left).map String.toList))
    (h : (scan (String.join (closed.flatten ++ left))).faults.all Fault.isUnterminated = true) :
    (∀ group ∈ closed, (scan (groupText group)).faults = []) ∧
      contents (String.join (closed.flatten ++ left)) =
        closed.flatMap (fun group => contents (groupText group)) ++ contents (String.join left) ∧
      (scan (String.join (closed.flatten ++ left))).faults.map Fault.isUnterminated =
        (scan (String.join left)).faults.map Fault.isUnterminated ∧
      ∀ done, done <+: closed → done ≠ [] → done.flatten = closed.flatten ++ left ∨
        EndsLine (String.join (closed.flatten ++ left)) (String.join done.flatten) := by
  induction closed with
  | nil => exact ⟨by simp, rfl, rfl, fun done hp hne => absurd (List.prefix_nil.mp hp) hne⟩
  | cons group closed ih =>
    rw [List.flatten_cons, List.append_assoc] at hlines h ⊢
    generalize hothers : closed.flatten ++ left = others at hlines h ih ⊢
    obtain ⟨hgroup, hclosed⟩ := List.forall_mem_cons.mp hclosed
    have hfaults := faults_of_not_leavesOpen hgroup.closed (String.join_append ▸ h)
    obtain ⟨hcontents, hkinds, hseam⟩ := scan_group_append hgroup.ne_nil hlines hfaults
    have hrest : Text.InLines '\n' (others.map String.toList) := by
      rw [List.map_append] at hlines
      exact hlines.append_cases.1
    -- The other groups are in a text of the same sort, as the faults of the whole are theirs.
    have hall : (scan (String.join others)).faults.all Fault.isUnterminated = true := by
      rw [← Function.id_comp Fault.isUnterminated, ← List.all_map] at h ⊢
      rwa [← hkinds]
    obtain ⟨hfaultless, hflat, hleft, hends⟩ := ih hclosed hrest hall
    refine ⟨List.forall_mem_cons.mpr ⟨hfaults, hfaultless⟩, ?_, hkinds.trans hleft, ?_⟩
    · rw [hcontents, hflat, List.flatMap_cons, List.append_assoc]
    · intro done hp hne
      obtain ⟨first, done, rfl⟩ := List.exists_cons_of_ne_nil hne
      obtain ⟨rfl, hdone⟩ := List.cons_prefix_cons.mp hp
      rw [List.flatten_cons]
      by_cases hnil : others = []
      · obtain ⟨more, rfl⟩ := hdone
        rw [hnil, List.flatten_append, List.append_assoc, List.append_eq_nil_iff] at hothers
        exact Or.inl (by rw [hothers.1, hnil])
      obtain ⟨pieces, hpart, hcuts⟩ := hseam hnil
      by_cases hlast : done = []
      · subst hlast
        exact Or.inr ⟨pieces, _, hcuts, by simpa using hpart⟩
      · refine (hends done hdone hlast).imp (fun hwhole => by rw [hwhole]) fun hend => ?_
        rw [String.join_append (l := first) (m := done.flatten)]
        exact hend.append hpart hcuts

private theorem stderr_groupsOutput {layout : Layout} {groups : List (List String)}
    (h : ∀ group ∈ groups, (scan (groupText group)).faults = []) :
    (groupsOutput layout groups).stderr = "" := by
  induction groups with
  | nil => rfl
  | cons group groups ih =>
    obtain ⟨hgroup, hgroups⟩ := List.forall_mem_cons.mp h
    have hrest := ih hgroups
    simp only [groupsOutput] at hrest ⊢
    rw [List.map_cons, String.join_cons, stderr_reply_of_faultless hgroup, hrest]
    rfl

section
variable {lines : List String} (g : Grouping LeavesOpen lines)

private theorem flatMap_groups :
    g.groups.flatMap (fun group => contents (groupText group)) =
      g.closed.flatMap (fun group => contents (groupText group)) ++
        contents (String.join g.left) := by
  rw [Grouping.groups, List.flatMap_append]
  by_cases hleft : g.left = []
  · rw [if_pos hleft, hleft, List.flatMap_nil, String.join_nil, contents_empty]
  · rw [if_neg hleft, List.flatMap_singleton, groupText, contents_withoutTerminators]

private theorem left_eq_nil_iff : g.left = [] ↔ (scan (String.join g.left)).faults = [] := by
  constructor
  · intro hleft
    rw [hleft, String.join_nil, scan_empty]
  · intro hfaults
    by_contra hne
    obtain ⟨line, hopen⟩ := g.left_open g.left hne (List.prefix_refl _)
    rw [groupText, faults_withoutTerminators_eq_nil.mpr hfaults] at hopen
    cases hopen

private theorem stderr_endOutput (layout : Layout) :
    (endOutput layout g.left).stderr =
      if g.left = [] then "" else
        "[line " ++ (lineAfter (groupText g.left).toList).repr ++
          "] Error: Unterminated string.\n" := by
  by_cases hleft : g.left = []
  · simp only [endOutput, if_pos hleft]
  · obtain ⟨line, hopen⟩ := g.left_open g.left hleft (List.prefix_refl _)
    have hline : line = lineAfter (groupText g.left).toList := line_of_mem_faults (by simp [hopen])
    rw [hline] at hopen
    simp only [endOutput, if_neg hleft, stderr_reply_of_open hopen]

end

/-- A text in which nothing is amiss but a string that may be open at its end falls into groups of
lines whose tokens are together those of one scan of the text. Every group ends at a newline that is
within no string, or at the end of the text. The prompt reports nothing but the string that is open,
and that in the last group. -/
theorem runPrompt_agrees (layout : Layout) (source : String)
    (h : (scan source).faults = [] ∨ ∃ line, (scan source).faults = [.unterminatedString line]) :
    ∃ (lines : List String) (g : Grouping LeavesOpen lines),
      String.join lines = source ∧ Text.InLines '\n' (lines.map String.toList) ∧
      runPrompt layout (Text.encodeUtf8 source) =
        ⟨0, (groupsOutput layout g.closed).add (endOutput layout g.left).stdout
          (endOutput layout g.left).stderr⟩ ∧
      g.groups.flatMap (fun group => contents (groupText group)) = contents source ∧
      (∀ done, done <+: g.groups → done ≠ [] →
        done.flatten = lines ∨ EndsLine source (String.join done.flatten)) ∧
      (g.left = [] ↔ (scan source).faults = []) ∧
      (runPrompt layout (Text.encodeUtf8 source)).output.stderr =
        if g.left = [] then "" else
          "[line " ++ (lineAfter (groupText g.left).toList).repr ++
            "] Error: Unterminated string.\n" := by
  obtain ⟨lines, rfl, hlines⟩ := Text.exists_lines source
  obtain ⟨g⟩ := Grouping.nonempty LeavesOpen lines
  have hread : runPrompt layout _ = _ :=
    runPrompt_of_lines g (Text.decode_splitLines_encodeUtf8 hlines)
  have hall : (scan (String.join lines)).faults.all Fault.isUnterminated = true := by
    rcases h with h | ⟨line, h⟩ <;> rw [h] <;> rfl
  have hscan := @scan_closed_groups g.closed g.left g.shortest
  rw [g.whole] at hscan
  obtain ⟨hfaultless, hcontents, hkinds, hends⟩ := hscan hlines hall
  refine ⟨lines, g, rfl, hlines, hread, ?_, ?_, ?_, ?_⟩
  · rw [flatMap_groups, hcontents]
  · intro done hp hne
    rcases g.closed_or_whole_of_isPrefix hp with hclosed | hwhole
    · exact hends done hclosed hne
    · exact Or.inl hwhole
  · rw [left_eq_nil_iff, ← List.map_eq_nil_iff, ← hkinds, List.map_eq_nil_iff]
  · rw [hread, ← stderr_endOutput g layout]
    simp only [Output.add, stderr_groupsOutput hfaultless, String.empty_append]

/-- A string with a blank line in it, a comment with a quote, another blank line, and a string that is
left open. -/
theorem runPrompt_agrees_strings :
    let source := "x \"a\n\nb\" // \"\r\n\n\"c\r\n"
    (scan source).faults = [.unterminatedString 6] ∧
      ∃ (lines : List String) (g : Grouping LeavesOpen lines),
        String.join lines = source ∧ g.left ≠ [] ∧
        g.groups.flatMap (fun group => contents (groupText group)) =
          [(.identifier, "x", none), (.string, "\"a\n\nb\"", some (.string "a\n\nb"))] := by
  intro source
  have hfaults : (scan source).faults = [.unterminatedString 6] := by decide +kernel
  obtain ⟨lines, g, hjoin, -, -, hcontents, -, hleft, -⟩ :=
    runPrompt_agrees .display source (Or.inr ⟨6, hfaults⟩)
  refine ⟨hfaults, lines, g, hjoin, ?_, hcontents.trans (by decide +kernel)⟩
  rw [Ne, hleft, hfaults]
  exact List.cons_ne_nil _ _

end LoxLexis
