import LoxLexis.Proofs.ScanParts

/-! Layout that is put in between two lexemes only moves what stands behind it. -/
namespace LoxLexis
open Alphabet Lexeme

/-- Blanks, or a comment on the rest of a line with a space before it. -/
inductive Filler : List Char → Prop where
  | blanks {text : List Char} : Blanks text → Filler text
  | comment {body : List Char} : '\n' ∉ body → Filler (' ' :: '/' :: '/' :: (body ++ ['\n']))

namespace Filler
variable {filler : List Char}

private theorem isBlank_head (h : Filler filler) : ∀ c ∈ filler.head?, isBlank c = true := by
  cases h with
  | blanks hblanks => exact fun c hc => isBlank_iff.mpr (hblanks c (List.mem_of_mem_head? hc))
  | comment => exact fun c hc => Option.some.inj hc ▸ rfl

private theorem exists_split (h : Filler filler) :
    ∃ front back, filler = front ++ back ∧ '\n' ∉ front ∧
    Blanks back ∧ ∀ c ∈ back.head?, c = '\n' := by
  cases h with
  | blanks hblanks =>
    exact ⟨_, _, List.takeWhile_append_dropWhile.symm, not_mem_takeWhile_bne '\n' filler,
      fun c hc => hblanks c ((List.dropWhile_sublist _).subset hc), head_dropWhile_bne '\n' filler⟩
  | @comment body hbody =>
    exact ⟨' ' :: '/' :: '/' :: body, ['\n'], rfl, by simp [hbody], by simp [Blanks], by simp⟩

private theorem scanFrom_append (h : Filler filler) (line : Nat) (rest : List Char) :
    scanFrom line (filler ++ rest) = scanFrom (line + filler.count '\n') rest := by
  cases h with
  | blanks hblanks => exact scanFrom_blanks line hblanks rest
  | @comment body hbody =>
    have hcount : line + (' ' :: '/' :: '/' :: (body ++ ['\n'])).count '\n' =
        line + [' '].count '\n' + ['\n'].count '\n' := by
      simp [List.count_eq_zero.mpr hbody]
    have hnewline : ∀ c ∈ ('\n' :: rest).head?, c = '\n' := by simp
    rw [hcount, List.cons_append, List.cons_append, List.cons_append, List.append_assoc,
      scanFrom_blank line rfl, List.singleton_append, scanFrom_comment _ hbody hnewline,
      scanFrom_blank _ rfl]

private theorem scanFrom_comment_append (h : Filler filler) {piece rest : List Char}
    (hs : Spells .comment piece) (hrest : ∀ c ∈ rest.head?, c = '\n') (line : Nat) :
    scanFrom line (piece ++ (filler ++ rest)) =
      scanFrom (line + piece.count '\n' + filler.count '\n') rest := by
  obtain ⟨front, back, rfl, hfront, hblanks, hback⟩ := h.exists_split
  cases hs with
  | @comment body hbody =>
    have hlonger : '\n' ∉ body ++ front := by simp [hbody, hfront]
    have hend : ∀ c ∈ (back ++ rest).head?, c = '\n' := by
      cases back with
      | nil => exact hrest
      | cons => exact hback
    have htext : '/' :: '/' :: body ++ (front ++ back ++ rest) =
        '/' :: '/' :: (body ++ front ++ (back ++ rest)) := by simp
    have hcount : ('/' :: '/' :: body).count '\n' = 0 := List.count_eq_zero.mpr (by simp [hbody])
    rw [htext, scanFrom_comment line hlonger hend, scanFrom_blanks line hblanks, hcount,
      List.count_append, List.count_eq_zero.mpr hfront, Nat.zero_add, Nat.add_zero]

end Filler

private theorem Lexeme.first_insert {l : Lexeme} {front rest filler : List Char}
    (h : first l.head (l.tail ++ (front ++ rest)) = (l, front ++ rest)) (hfiller : Filler filler)
    (hcomment : l.category = .comment → front ≠ []) (hopen : l.category ≠ .openString) :
    first l.head (l.tail ++ (front ++ (filler ++ rest))) = (l, front ++ (filler ++ rest)) := by
  rcases first_eq_cases h with hl | ⟨hk, -⟩ | ⟨-, hstray⟩
  · cases filler with
    | nil => exact h
    | cons b more =>
      have hb := hfiller.isBlank_head b rfl
      have hpoint : b ≠ '.' := by
        rintro rfl
        cases hb
      exact first_of_isLongest (hl.of_divider (Or.inl hb) (isDigit_eq_false_of_isBlank hb) hpoint
        fun hk hfront => absurd hfront (hcomment hk))
  · exact absurd hk hopen
  · exact hstray _

/-- What is put in between lexemes moves those behind it down by its lines. A comment directly
before it takes in its first line. -/
theorem scanFrom_insert {done later : List Lexeme} {filler : List Char} (hfiller : Filler filler)
    (h : sequence ((done ++ later).flatMap chars) = done ++ later)
    (hopen : ∀ l ∈ done, l.category ≠ .openString) (line : Nat) :
    scanFrom line (done.flatMap chars ++ (filler ++ later.flatMap chars)) = scanLexemes line done ++
      scanFrom (line + (done.flatMap chars).count '\n' + filler.count '\n')
        (later.flatMap chars) := by
  induction done generalizing line with
  | nil => exact hfiller.scanFrom_append line _
  | cons l done ih =>
    rw [List.cons_append] at h
    have hfirst := first_of_sequence_eq h
    rw [List.flatMap_append] at hfirst
    have hrest := sequence_of_cons h
    by_cases hcomment : l.category = .comment ∧ done = []
    · -- The comment grows by the first line of the filler. No token and no fault comes of either.
      obtain ⟨hk, rfl⟩ := hcomment
      have hl : IsLongest l.category l.chars (later.flatMap chars) :=
        isLongest_of_first hfirst (by rw [hk]; rfl)
      rw [hk] at hl
      rw [List.flatMap_singleton, hfiller.scanFrom_comment_append hl.spells hl.comment_end,
        scanLexemes_gap line (hk ▸ hl.spells) (Or.inr hk)]
      rfl
    · have hinsert := first_insert hfirst hfiller
        (fun hk => flatMap_chars_ne_nil fun hdone => hcomment ⟨hk, hdone⟩)
        (hopen l List.mem_cons_self)
      rw [List.flatMap_cons, List.append_assoc, scanFrom_of_first line hinsert,
        ih hrest (fun m hm => hopen m (List.mem_cons_of_mem l hm)), scanLexemes_cons line l done,
        Scan.append_assoc, List.count_append, newlines, Nat.add_assoc line]

private theorem not_openString_of_mem {source : String} {done later : List Lexeme}
    (h : sequence source.toList = done ++ later)
    (hclosed : later = [] → (scan source).faults.any Fault.isUnterminated = false) :
    ∀ l ∈ done, l.category ≠ .openString := by
  intro l hm hl
  have hlast : later = [] := by
    obtain ⟨front, back, rfl⟩ := List.append_of_mem hm
    rw [List.append_assoc] at h
    have hrest := eq_nil_of_openString (first_of_sequence_eq (sequence_of_suffix h)) hl
    by_contra hne
    exact flatMap_chars_ne_nil (List.append_ne_nil_of_right_ne_nil back hne) hrest
  have hm : l ∈ sequence source.toList := by
    rw [h]
    exact List.mem_append_left later hm
  obtain ⟨front, body, hbody, hfront⟩ := sequence_of_mem_openString hm hl
  have hchars := flatMap_chars_sequence source.toList
  rw [hfront, List.flatMap_append, flatMap_chars_sequence] at hchars
  have hfaults := hclosed hlast
  rw [scan_of_open hfront hbody hchars] at hfaults
  simp [Fault.isUnterminated] at hfaults

private theorem stepsBetween_of_sequence_eq {source : String} {done later : List Lexeme}
    (h : sequence source.toList = done ++ later) :
    let p := byteLength (done.flatMap chars)
    stepsBetween source 0 p = stepsFrom 0 1 done ∧
      stepsBetween source p source.utf8ByteSize =
        stepsFrom p (lineAfter (done.flatMap chars)) later := by
  intro p
  have hsize : source.utf8ByteSize = p + byteLength (later.flatMap chars) := by
    rw [← byteLength_toList, ← flatMap_chars_sequence source.toList, h, List.flatMap_append,
      byteLength_append]
  have hearly : sequence source.toList = [] ++ (done ++ later) := h
  have hlate : sequence source.toList = done ++ (later ++ []) := by rw [h, List.append_nil]
  constructor
  · have hbetween := stepsBetween_eq hearly
    simpa [p, byteLength, lineAfter] using hbetween
  · rw [hsize]
    exact stepsBetween_eq hlate

private theorem scanFrom_of_sequence_eq {source : String} {done later : List Lexeme}
    (h : sequence source.toList = done ++ later) :
    let line := lineAfter (done.flatMap chars)
    scanFrom line (later.flatMap chars) =
      ⟨tokensFrom line later ++ [Token.atEnd source], faultsFrom line later⟩ := by
  intro line
  have hend : lineAfter source.toList = line + (later.flatMap chars).count '\n' := by
    rw [← flatMap_chars_sequence source.toList, h, List.flatMap_append, lineAfter_append]
  rw [scanFrom, sequence_of_suffix h, Token.atEnd, hend]
  exact Scan.ext rfl (List.append_nil _)

/-- Layout put in at a boundary of a scan leaves all tokens and faults before it as they are and
moves those behind it, and the end, down by its lines. Only an open string would take it in, and
none stands before. -/
theorem scan_insert {source : String} {p : Nat} (hp : Boundary source p)
    (hclosed : p = source.utf8ByteSize → (scan source).faults.any Fault.isUnterminated = false)
    {filler : String} (hfiller : Filler filler.toList) :
    let early := stepsBetween source 0 p
    let late := stepsBetween source p source.utf8ByteSize
    let lines := filler.toList.count '\n'
    ∃ before after : String, source = before ++ after ∧ before.utf8ByteSize = p ∧
      scan source =
        ⟨early.filterMap Step.token? ++ (late.filterMap Step.token? ++ [Token.atEnd source]),
          early.filterMap Step.fault? ++ late.filterMap Step.fault?⟩ ∧
      scan (before ++ filler ++ after) =
        ⟨early.filterMap Step.token? ++
            (late.filterMap Step.token? ++ [Token.atEnd source]).map (Token.later lines),
          early.filterMap Step.fault? ++ (late.filterMap Step.fault?).map (Fault.later lines)⟩ ∧
      ∀ f ∈ early.filterMap Step.fault?, f.isUnterminated = false := by
  intro early late lines
  obtain ⟨done, later, h, rfl⟩ := hp.exists_split
  have hchars := flatMap_chars_sequence source.toList
  rw [h] at hchars
  have hopen := not_openString_of_mem h fun hlater => hclosed (by
    rw [← byteLength_toList, ← hchars, hlater, List.append_nil])
  obtain ⟨hearly, hlate⟩ := stepsBetween_of_sequence_eq h
  have hinsert := scanFrom_insert hfiller (by rw [hchars, h]) hopen 1
  simp only [early, late, hearly, hlate, filterMap_token?_stepsFrom, filterMap_fault?_stepsFrom]
  refine ⟨String.ofList (done.flatMap chars), String.ofList (later.flatMap chars), ?_, rfl,
    ?_, ?_, ?_⟩
  · rw [← String.ofList_append, ← List.flatMap_append, hchars, String.ofList_toList]
  · exact scan_of_sequence_eq h
  · have htext : String.ofList (done.flatMap chars) ++ filler ++
          String.ofList (later.flatMap chars) =
        String.ofList (done.flatMap chars ++ (filler.toList ++ later.flatMap chars)) := by
      rw [String.ofList_append, String.ofList_append, String.ofList_toList, String.append_assoc]
    rw [htext, scan_ofList, hinsert, scanFrom_add, ← lineAfter, scanFrom_of_sequence_eq h]
    rfl
  · intro f hf
    cases f with
    | unexpectedCharacter => rfl
    | unterminatedString line =>
      obtain ⟨l, hm, hl⟩ := exists_openString_of_mem hf
      exact absurd hl (hopen l hm)

/-- A comment takes in the comment that is put in behind it, and a line more stands before what
follows. -/
theorem scan_insert_comment :
    let source := "1.// c\n+@\"a"
    ∃ before after : String, source = before ++ after ∧ before.utf8ByteSize = 6 ∧
      (scan (before ++ " //d\n" ++ after)).tokens.map (fun t => (t.lexeme, t.line)) =
        [("1", 1), (".", 1), ("+", 3), ("", 3)] ∧
      (scan (before ++ " //d\n" ++ after)).faults =
        [.unexpectedCharacter '@' 3, .unterminatedString 3] := by
  intro source
  have hp : Boundary source 6 := by decide +kernel
  have hclosed : 6 = source.utf8ByteSize → (scan source).faults.any Fault.isUnterminated = false :=
    fun h => absurd h (by decide)
  have hfiller : Filler " //d\n".toList := .comment (by decide : '\n' ∉ ['d'])
  obtain ⟨before, after, hsource, hbefore, -, hscan, -⟩ := scan_insert hp hclosed hfiller
  refine ⟨before, after, hsource, hbefore, ?_, ?_⟩
  · rw [hscan]
    decide +kernel
  · rw [hscan]
    decide +kernel

end LoxLexis
