import LoxLexis.Proofs.ScanSteps

/-! A string that is left open goes on with whatever text follows, up to the next quote. -/
namespace LoxLexis

private theorem IsLongest.of_quote {k : Category} {piece rest body other : List Char}
    (h : IsLongest k piece (rest ++ '"' :: body)) : IsLongest k piece (rest ++ '"' :: other) := by
  refine h.of_divider (Or.inr rfl) (by decide) (by decide) ?_
  rintro rfl rfl
  exact h.comment_end '"' rfl

namespace Lexeme

private theorem first_of_rest_quote {l : Lexeme} {rest body : List Char}
    (h : first l.head (l.tail ++ (rest ++ '"' :: body)) = (l, rest ++ '"' :: body))
    (other : List Char) :
    first l.head (l.tail ++ (rest ++ '"' :: other)) = (l, rest ++ '"' :: other) := by
  rcases first_eq_cases h with hl | ⟨-, hnil⟩ | ⟨-, hstray⟩
  · exact first_of_isLongest hl.of_quote
  · simp at hnil
  · exact hstray _

/-- The lexemes before a quote stay the same whatever stands behind it. -/
theorem sequence_before_quote {text body : List Char} {done : List Lexeme}
    (h : sequence text = done ++ sequence ('"' :: body))
    (other : List Char) :
    sequence (done.flatMap chars ++ '"' :: other) = done ++ sequence ('"' :: other) := by
  induction done generalizing text with
  | nil => rfl
  | cons l done ih =>
    rw [List.cons_append] at h
    have hfirst := first_of_sequence_eq h
    rw [List.flatMap_append, flatMap_chars_sequence] at hfirst
    rw [List.flatMap_cons, chars, List.append_assoc, List.cons_append, sequence_cons,
      first_of_rest_quote hfirst, ih (sequence_of_cons h), List.cons_append]

theorem sequence_open {body : List Char} (h : '"' ∉ body) :
    sequence ('"' :: body) = [⟨.openString, '"', body⟩] := by
  rw [sequence_cons, first_of_quote, firstString_of_open h, sequence_nil]

private theorem sequence_closed {body : List Char} (h : '"' ∉ body) (more : List Char) :
    sequence ('"' :: (body ++ '"' :: more)) = ⟨.string, '"', body ++ ['"']⟩ :: sequence more := by
  rw [sequence_cons, first_of_quote, firstString_of_closed h]

/-- A string is left open by a quote without a second one, and nothing comes after it. -/
theorem sequence_of_mem_openString {text : List Char} {l : Lexeme} (hm : l ∈ sequence text)
    (hl : l.category = .openString) :
    ∃ done body, '"' ∉ body ∧ sequence text = done ++ sequence ('"' :: body) := by
  induction text using sequence_induction with
  | nil =>
    rw [sequence_nil] at hm
    cases hm
  | cons c text ih =>
    rw [sequence_cons] at hm ⊢
    rcases List.mem_cons.mp hm with rfl | hm
    · rcases first_cut c text with hs | ⟨hu, rfl, hf⟩ | ⟨-, -, hf⟩
      · have hspells := hs.spells
        rw [hl] at hspells
        cases hspells
      · exact ⟨[], text, hu.quote_not_mem, (sequence_cons _ _).symm⟩
      · rw [hf] at hl
        cases hl
    · obtain ⟨done, body, hbody, hsequence⟩ := ih hm
      exact ⟨(first c text).1 :: done, body, hbody, by rw [hsequence, List.cons_append]⟩

private theorem category_of_fault?_unterminated {l : Lexeme} {start line : Nat}
    (h : l.fault? start = some (.unterminatedString line)) : l.category = .openString := by
  unfold fault? at h
  split at h <;> simp_all

end Lexeme

/-- The report of an open string comes from a lexeme that is one. -/
theorem exists_openString_of_mem {line first : Nat} {lexemes : List Lexeme}
    (h : .unterminatedString line ∈ faultsFrom first lexemes) :
    ∃ l ∈ lexemes, l.category = .openString := by
  rw [← filterMap_fault?_stepsFrom 0, List.mem_filterMap] at h
  obtain ⟨s, hs, hf⟩ := h
  obtain ⟨done, later, rfl, -⟩ := exists_split_of_mem_stepsFrom hs
  exact ⟨s.lexeme, by simp, Lexeme.category_of_fault?_unterminated hf⟩

section
variable {text body other : List Char} {done : List Lexeme} {whole : String}

/-- A text that goes on without a quote after one that opens a string. -/
theorem scan_of_open (h : Lexeme.sequence text = done ++ Lexeme.sequence ('"' :: body))
    (hother : '"' ∉ other) (hwhole : done.flatMap Lexeme.chars ++ '"' :: other = whole.toList) :
    scan whole = ⟨tokensFrom 1 done ++ [Token.atEnd whole],
      faultsFrom 1 done ++ [.unterminatedString (lineAfter whole.toList)]⟩ := by
  have hsequence := Lexeme.sequence_before_quote h other
  rw [hwhole, Lexeme.sequence_open hother] at hsequence
  rw [scan_of_sequence_eq hsequence, ← hwhole, lineAfter_append]
  rfl

private theorem scan_of_closed (h : Lexeme.sequence text = done ++ Lexeme.sequence ('"' :: body))
    (hother : '"' ∉ other) {u : String}
    (hwhole : done.flatMap Lexeme.chars ++ '"' :: (other ++ '"' :: u.toList) = whole.toList) :
    let lines := (done.flatMap Lexeme.chars ++ '"' :: (other ++ ['"'])).count '\n'
    scan whole = ⟨tokensFrom 1 done ++
        ⟨.string, String.ofList ('"' :: (other ++ ['"'])), some (.string (String.ofList other)),
          lineAfter (done.flatMap Lexeme.chars)⟩ :: (scan u).tokens.map (Token.later lines),
      faultsFrom 1 done ++ (scan u).faults.map (Fault.later lines)⟩ := by
  intro lines
  let l : Lexeme := ⟨.string, '"', other ++ ['"']⟩
  have hsequence := Lexeme.sequence_before_quote h (other ++ '"' :: u.toList)
  rw [hwhole, Lexeme.sequence_closed hother] at hsequence
  have hspells : Spells l.category l.chars := .string hother
  have htoken := Lexeme.token?_of_denotes hspells (.string hother)
  have hfault := Lexeme.fault?_of_spells hspells
  have hu : done.flatMap Lexeme.chars ++ '"' :: (other ++ ['"']) ++ u.toList = whole.toList := by
    simp [← hwhole]
  have hline : lineAfter (done.flatMap Lexeme.chars) + l.newlines =
    lineAfter (done.flatMap Lexeme.chars ++ '"' :: (other ++ ['"'])) := (lineAfter_append _ _).symm
  rw [scan_of_sequence_eq hsequence, tokensFrom, faultsFrom, htoken, hfault, hline,
    tokens_map_later hu, faults_map_later]
  rfl

end

/-- A string that a scan leaves open takes in whatever follows without a quote, which moves nothing
but the line of the fault and of the end. The next quote closes it, and what comes behind is
scanned as by itself, on later lines. -/
theorem scan_open_string {source : String} {line : Nat}
    (h : .unterminatedString line ∈ (scan source).faults) :
    ∃ (before body : String) (tokens : List Token) (faults : List Fault),
      source = before ++ "\"" ++ body ∧
      ⟨before.utf8ByteSize, lineAfter before.toList, ⟨.openString, '"', body.toList⟩⟩ ∈
        steps source ∧
      scan source = ⟨tokens ++ [Token.atEnd source],
        faults ++ [.unterminatedString (lineAfter source.toList)]⟩ ∧
      ∀ t : String, '"' ∉ t.toList →
        scan (source ++ t) = ⟨tokens ++ [(Token.atEnd source).later (t.toList.count '\n')],
          faults ++ [.unterminatedString (lineAfter source.toList + t.toList.count '\n')]⟩ ∧
        ∀ u : String,
          let lines := (source ++ t).toList.count '\n'
          scan (source ++ t ++ "\"" ++ u) =
            ⟨tokens ++ ⟨.string, "\"" ++ body ++ t ++ "\"", some (.string (body ++ t)),
                lineAfter before.toList⟩ :: (scan u).tokens.map (Token.later lines),
              faults ++ (scan u).faults.map (Fault.later lines)⟩ := by
  rw [scan_faults] at h
  obtain ⟨l, hm, hl⟩ := exists_openString_of_mem h
  obtain ⟨done, body, hbody, hdone⟩ := Lexeme.sequence_of_mem_openString hm hl
  have hchars := Lexeme.flatMap_chars_sequence source.toList
  rw [hdone, List.flatMap_append, Lexeme.flatMap_chars_sequence] at hchars
  refine ⟨String.ofList (done.flatMap Lexeme.chars), String.ofList body, tokensFrom 1 done,
    faultsFrom 1 done, ?_, ?_, scan_of_open hdone hbody hchars, fun t ht => ⟨?_, fun u => ?_⟩⟩
  · rw [← String.toList_inj, ← hchars]
    simp
  · rw [steps, hdone, stepsFrom_append, Lexeme.sequence_open hbody, Nat.zero_add, stepsFrom,
      String.toList_ofList, String.toList_ofList]
    exact List.mem_append_right _ List.mem_cons_self
  · have hother : '"' ∉ body ++ t.toList := by simp [hbody, ht]
    have hwhole : done.flatMap Lexeme.chars ++ '"' :: (body ++ t.toList) =
        (source ++ t).toList := by
      rw [String.toList_append, ← hchars, List.append_assoc, List.cons_append]
    rw [scan_of_open hdone hother hwhole, Token.atEnd, Token.atEnd, String.toList_append,
      lineAfter_append]
    rfl
  · have hother : '"' ∉ body ++ t.toList := by simp [hbody, ht]
    have hwhole : done.flatMap Lexeme.chars ++ '"' :: (body ++ t.toList ++ '"' :: u.toList) =
        (source ++ t ++ "\"" ++ u).toList := by
      simp [← hchars]
    have hlines : (done.flatMap Lexeme.chars ++ '"' :: (body ++ t.toList ++ ['"'])).count '\n' =
        (source ++ t).toList.count '\n' := by
      simp [← hchars]
    have hvalue : String.ofList body ++ t = String.ofList (body ++ t.toList) := by
      rw [String.ofList_append, String.ofList_toList]
    have hlexeme : "\"" ++ String.ofList body ++ t ++ "\"" =
        String.ofList ('"' :: (body ++ t.toList ++ ['"'])) := by
      rw [← String.toList_inj]
      simp
    rw [hlexeme, hvalue, String.toList_ofList, scan_of_closed hdone hother hwhole, hlines]

/-- A comment, a character that is stray elsewhere and a newline are text in a string that is
open. -/
theorem scan_open_string_comment :
    let source := "x@\n\"a\n"
    scan source = ⟨[⟨.identifier, "x", none, 1⟩, Token.atEnd source],
        [.unexpectedCharacter '@' 1, .unterminatedString 3]⟩ ∧
      scan (source ++ "//@\n" ++ "\"" ++ "\"b") =
        ⟨[⟨.identifier, "x", none, 1⟩,
            ⟨.string, "\"a\n//@\n\"", some (.string "a\n//@\n"), 2⟩, ⟨.endOfInput, "", none, 4⟩],
          [.unexpectedCharacter '@' 1, .unterminatedString 4]⟩ := by
  intro source
  have hsource : scan source = ⟨[⟨.identifier, "x", none, 1⟩, Token.atEnd source],
      [.unexpectedCharacter '@' 1, .unterminatedString 3]⟩ := by decide +kernel
  have hopen : .unterminatedString 3 ∈ (scan source).faults := by simp [hsource]
  obtain ⟨before, body, tokens, faults, -, hstep, hscan, hmore⟩ := scan_open_string hopen
  have hsteps : steps source = [⟨0, 1, ⟨.word, 'x', []⟩⟩, ⟨1, 1, ⟨.stray, '@', []⟩⟩,
      ⟨2, 1, ⟨.blank, '\n', []⟩⟩, ⟨3, 2, ⟨.openString, '"', ['a', '\n']⟩⟩] := by decide +kernel
  obtain ⟨-, hline, hbody⟩ : _ ∧ lineAfter before.toList = 2 ∧ body.toList = "a\n".toList := by
    simpa [hsteps] using hstep
  obtain rfl := String.toList_inj.mp hbody
  have hend : lineAfter source.toList = 3 := by decide
  rw [hend] at hscan
  have ht : tokens ++ [Token.atEnd source] =
      [⟨.identifier, "x", none, 1⟩] ++ [Token.atEnd source] :=
    congrArg Scan.tokens (hscan.symm.trans hsource)
  have hf : faults ++ [.unterminatedString 3] =
      [.unexpectedCharacter '@' 1] ++ [.unterminatedString 3] :=
    congrArg Scan.faults (hscan.symm.trans hsource)
  obtain rfl := List.append_cancel_right ht
  obtain rfl := List.append_cancel_right hf
  have hclosed := (hmore "//@\n" (by decide)).2 "\"b"
  rw [hline] at hclosed
  exact ⟨hsource, hclosed.trans (by decide +kernel)⟩

end LoxLexis
