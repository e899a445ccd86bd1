import LoxLexis.Proofs.JoinedTexts
import LoxLexis.Proofs.SourceTiles

/-! The steps of a scan, and what lies between two of them scanned by itself. -/
namespace LoxLexis

/-- One step of a scan: the offset of its first byte, the line that it begins on and the lexeme
that it takes. -/
structure Step where
  start : Nat
  line : Nat
  lexeme : Lexeme
deriving DecidableEq, Repr

namespace Step

def past (s : Step) : Nat := s.start + byteLength s.lexeme.chars

def token? (s : Step) : Option Token := s.lexeme.token? s.line

def fault? (s : Step) : Option Fault := s.lexeme.fault? s.line

end Step

/-- The steps over a sequence of lexemes that begins at an offset and on a line. -/
def stepsFrom : Nat → Nat → List Lexeme → List Step
  | _, _, [] => []
  | start, line, l :: rest =>
    ⟨start, line, l⟩ :: stepsFrom (start + byteLength l.chars) (line + l.newlines) rest

def steps (source : String) : List Step := stepsFrom 0 1 (Lexeme.sequence source.toList)

/-- The offsets at which a step begins, and both ends. -/
def Boundary (source : String) (p : Nat) : Prop :=
  p = 0 ∨ p = source.utf8ByteSize ∨ ∃ s ∈ steps source, s.start = p

instance (source : String) (p : Nat) : Decidable (Boundary source p) :=
  inferInstanceAs (Decidable (_ ∨ _ ∨ _))

def stepsBetween (source : String) (p q : Nat) : List Step :=
  (steps source).filter fun s => p ≤ s.start ∧ s.past ≤ q

section Steps
variable {start line : Nat} {lexemes : List Lexeme}

theorem filterMap_token?_stepsFrom (start line : Nat) (lexemes : List Lexeme) :
    (stepsFrom start line lexemes).filterMap Step.token? = tokensFrom line lexemes := by
  induction lexemes generalizing start line with
  | nil => rfl
  | cons l rest ih =>
    rw [stepsFrom, tokensFrom, List.filterMap_cons, ih, Step.token?]
    cases l.token? line <;> rfl

theorem filterMap_fault?_stepsFrom (start line : Nat) (lexemes : List Lexeme) :
    (stepsFrom start line lexemes).filterMap Step.fault? = faultsFrom line lexemes := by
  induction lexemes generalizing start line with
  | nil => rfl
  | cons l rest ih =>
    rw [stepsFrom, faultsFrom, List.filterMap_cons, ih, Step.fault?]
    cases l.fault? line <;> rfl

/-- A scan gives the tokens and the faults of its steps. -/
theorem scan_eq_steps (source : String) :
    scan source = ⟨(steps source).filterMap Step.token? ++ [Token.atEnd source],
      (steps source).filterMap Step.fault?⟩ := by
  rw [steps, filterMap_token?_stepsFrom, filterMap_fault?_stepsFrom]
  exact Scan.ext (scan_tokens source) (scan_faults source)

theorem stepsFrom_append (start line : Nat) (done later : List Lexeme) :
    stepsFrom start line (done ++ later) = stepsFrom start line done ++
      stepsFrom (start + byteLength (done.flatMap Lexeme.chars))
        (line + (done.flatMap Lexeme.chars).count '\n') later := by
  induction done generalizing start line with
  | nil => rfl
  | cons l done ih =>
    rw [List.cons_append, stepsFrom, stepsFrom, ih, List.flatMap_cons, byteLength_append,
      List.count_append, Nat.add_assoc, Nat.add_assoc]
    rfl

theorem byteLength_chars_pos (l : Lexeme) : 0 < byteLength l.chars :=
  byteLength_pos l.chars_ne_nil

/-- The steps over a sequence lie within its bytes, and each takes at least one. -/
theorem mem_stepsFrom {s : Step} (h : s ∈ stepsFrom start line lexemes) :
    start ≤ s.start ∧ s.start < s.past ∧
      s.past ≤ start + byteLength (lexemes.flatMap Lexeme.chars) := by
  induction lexemes generalizing start line with
  | nil => cases h
  | cons l rest ih =>
    have hpos := byteLength_chars_pos l
    rw [List.flatMap_cons, byteLength_append]
    rcases List.mem_cons.mp h with rfl | h
    · simp only [Step.past]
      omega
    · have hrest := ih h
      omega

theorem exists_split_of_mem_stepsFrom {s : Step} (h : s ∈ stepsFrom start line lexemes) :
    ∃ done later, lexemes = done ++ s.lexeme :: later ∧
      s.start = start + byteLength (done.flatMap Lexeme.chars) := by
  induction lexemes generalizing start line with
  | nil => cases h
  | cons l rest ih =>
    rcases List.mem_cons.mp h with rfl | h
    · exact ⟨[], rest, rfl, rfl⟩
    · obtain ⟨done, later, rfl, hs⟩ := ih h
      refine ⟨l :: done, later, rfl, ?_⟩
      rw [hs, List.flatMap_cons, byteLength_append, Nat.add_assoc]

/-- The scan of a source whose lexemes are given in two parts. -/
theorem scan_of_sequence_eq {source : String} {done later : List Lexeme}
    (h : Lexeme.sequence source.toList = done ++ later) :
    scan source = ⟨tokensFrom 1 done ++
        (tokensFrom (lineAfter (done.flatMap Lexeme.chars)) later ++ [Token.atEnd source]),
      faultsFrom 1 done ++ faultsFrom (lineAfter (done.flatMap Lexeme.chars)) later⟩ := by
  rw [scan_eq_steps, steps, h, stepsFrom_append, List.filterMap_append, List.filterMap_append]
  simp only [filterMap_token?_stepsFrom, filterMap_fault?_stepsFrom, List.append_assoc]
  rfl

end Steps

/-- At a boundary the lexemes come apart. -/
theorem Boundary.exists_split {source : String} {p : Nat} (h : Boundary source p) :
    ∃ done later, Lexeme.sequence source.toList = done ++ later ∧
      byteLength (done.flatMap Lexeme.chars) = p := by
  rcases h with rfl | rfl | ⟨s, hs, rfl⟩
  · exact ⟨[], _, rfl, rfl⟩
  · refine ⟨_, [], (List.append_nil _).symm, ?_⟩
    rw [Lexeme.flatMap_chars_sequence, byteLength_toList]
  · obtain ⟨done, later, hsequence, hstart⟩ := exists_split_of_mem_stepsFrom hs
    exact ⟨done, _, hsequence, by rw [hstart, Nat.zero_add]⟩

private theorem exists_middle {done done' later later' : List Lexeme}
    (h : done ++ later = done' ++ later')
    (hle : byteLength (done.flatMap Lexeme.chars) ≤ byteLength (done'.flatMap Lexeme.chars)) :
    ∃ middle, done' = done ++ middle := by
  rcases List.append_eq_append_iff.mp h with ⟨middle, hmiddle, -⟩ | ⟨middle, rfl, -⟩
  · exact ⟨middle, hmiddle⟩
  · cases middle with
    | nil => exact ⟨[], by simp⟩
    | cons l middle =>
      have hpos := byteLength_chars_pos l
      simp only [List.flatMap_append, List.flatMap_cons, byteLength_append] at hle
      omega

private theorem IsLongest.of_prefix {k : Category} {piece rest shorter : List Char}
    (h : IsLongest k piece rest) (hp : shorter <+: rest) : IsLongest k piece shorter :=
  ⟨h.spells, fun hs ho => h.longest hs (ho.trans ((List.prefix_append_right_inj piece).mpr hp))⟩

namespace Lexeme

/-- A stray character is cut by itself whatever stands behind it. -/
theorem first_of_stray {c : Char} {rest : List Char} (h : Unmatched (c :: rest)) (hc : c ≠ '"')
    (other : List Char) : first c other = (⟨.stray, c, []⟩, other) :=
  (first_of_unmatched (h.of_ne_quote hc other)).trans (if_neg hc)

/-- A lexeme that is cut is the longest beginning in one of the forms, an open string, behind which
nothing is left, or a stray character. -/
theorem first_eq_cases {l : Lexeme} {rest : List Char}
    (h : first l.head (l.tail ++ rest) = (l, rest)) :
    IsLongest l.category l.chars rest ∨ (l.category = .openString ∧ rest = []) ∨
      (l.category = .stray ∧ ∀ other, first l.head (l.tail ++ other) = (l, other)) := by
  have hcut := first_cut l.head (l.tail ++ rest)
  rw [h] at hcut
  rcases hcut with hl | ⟨-, -, hf⟩ | ⟨hu, hc, hf⟩
  · exact Or.inl hl
  · obtain ⟨hl, hrest⟩ := Prod.mk.inj hf
    exact Or.inr (Or.inl ⟨congrArg category hl, hrest⟩)
  · obtain ⟨hl, -⟩ := Prod.mk.inj hf
    refine Or.inr (Or.inr ⟨congrArg category hl, fun other => ?_⟩)
    rw [hl]
    exact first_of_stray hu hc other

private theorem first_of_prefix {l : Lexeme} {rest shorter : List Char}
    (h : first l.head (l.tail ++ rest) = (l, rest)) (hp : shorter <+: rest) :
    first l.head (l.tail ++ shorter) = (l, shorter) := by
  rcases first_eq_cases h with hl | ⟨-, rfl⟩ | ⟨-, hstray⟩
  · exact first_of_isLongest (hl.of_prefix hp)
  · obtain rfl := List.prefix_nil.mp hp
    exact h
  · exact hstray shorter

private theorem exists_first_of_sequence_eq {text : List Char} {l : Lexeme} {rest : List Lexeme}
    (h : sequence text = l :: rest) :
    ∃ c text', text = c :: text' ∧ l = (first c text').1 ∧ sequence (first c text').2 = rest := by
  cases text with
  | nil =>
    rw [sequence_nil] at h
    cases h
  | cons c text =>
    rw [sequence_cons] at h
    obtain ⟨rfl, hrest⟩ := List.cons.inj h
    exact ⟨c, text, rfl, rfl, hrest⟩

theorem flatMap_chars_ne_nil {lexemes : List Lexeme} (h : lexemes ≠ []) :
    lexemes.flatMap chars ≠ [] := by
  obtain ⟨l, rest, rfl⟩ := List.exists_cons_of_ne_nil h
  exact List.cons_ne_nil _ _

/-- The first lexeme of a sequence is cut with the others behind it. -/
theorem first_of_sequence_eq {text : List Char} {l : Lexeme} {lexemes : List Lexeme}
    (h : sequence text = l :: lexemes) :
    first l.head (l.tail ++ lexemes.flatMap chars) = (l, lexemes.flatMap chars) := by
  obtain ⟨c, text, rfl, rfl, rfl⟩ := exists_first_of_sequence_eq h
  rw [flatMap_chars_sequence]
  have happ := first_append c text
  rw [chars, List.cons_append, List.cons.injEq] at happ
  rw [happ.1, happ.2]

/-- The others are cut as before without it. -/
theorem sequence_of_cons {text : List Char} {l : Lexeme} {lexemes : List Lexeme}
    (h : sequence text = l :: lexemes) : sequence (lexemes.flatMap chars) = lexemes := by
  obtain ⟨c, text, rfl, -, rfl⟩ := exists_first_of_sequence_eq h
  rw [flatMap_chars_sequence]

/-- What the first lexemes leave over is cut as before. -/
theorem sequence_of_suffix {text : List Char} {done rest : List Lexeme}
    (h : sequence text = done ++ rest) : sequence (rest.flatMap chars) = rest := by
  induction done generalizing text with
  | nil =>
    obtain rfl : sequence text = rest := h
    rw [flatMap_chars_sequence]
  | cons l done ih => exact ih (sequence_of_cons h)

private theorem sequence_of_prefix {text : List Char} {middle later : List Lexeme}
    (h : sequence text = middle ++ later) : sequence (middle.flatMap chars) = middle := by
  induction middle generalizing text with
  | nil => exact sequence_nil
  | cons l middle ih =>
    rw [List.cons_append] at h
    have hp : middle.flatMap chars <+: (middle ++ later).flatMap chars := by
      rw [List.flatMap_append]
      exact List.prefix_append _ _
    rw [List.flatMap_cons, chars, List.cons_append, sequence_cons,
      first_of_prefix (first_of_sequence_eq h) hp, ih (sequence_of_cons h)]

/-- Some lexemes in a row are cut as before from their own characters alone. -/
theorem sequence_of_infix {text : List Char} {done middle later : List Lexeme}
    (h : sequence text = done ++ (middle ++ later)) : sequence (middle.flatMap chars) = middle :=
  sequence_of_prefix (sequence_of_suffix h)

end Lexeme

/-- The steps between two cuts are those over the lexemes there. -/
theorem stepsBetween_eq {source : String} {done middle later : List Lexeme}
    (h : Lexeme.sequence source.toList = done ++ (middle ++ later)) :
    let start := byteLength (done.flatMap Lexeme.chars)
    stepsBetween source start (start + byteLength (middle.flatMap Lexeme.chars)) =
      stepsFrom start (lineAfter (done.flatMap Lexeme.chars)) middle := by
  intro start
  rw [stepsBetween, steps, h, stepsFrom_append, stepsFrom_append, List.filter_append,
    List.filter_append, Nat.zero_add]
  rw [List.filter_eq_nil_iff.mpr, List.filter_eq_self.mpr, List.filter_eq_nil_iff.mpr]
  · exact List.append_nil _
  · intro s hs
    have := mem_stepsFrom hs
    simp only [decide_eq_true_eq]
    omega
  · intro s hs
    have := mem_stepsFrom hs
    exact decide_eq_true ⟨this.1, this.2.2⟩
  · intro s hs
    have := mem_stepsFrom hs
    simp only [decide_eq_true_eq]
    omega

/-- A piece of a source between two boundaries, scanned by itself, has the tokens and the faults of
the steps between them, on lines counted from its own beginning. -/
theorem scan_piece {source : String} {p q : Nat} (hp : Boundary source p)
    (hq : Boundary source q) (hle : p ≤ q) :
    ∃ before piece after : String, source = before ++ piece ++ after ∧
      before.utf8ByteSize = p ∧ (before ++ piece).utf8ByteSize = q ∧
      ∃ tokens faults, scan piece = ⟨tokens ++ [Token.atEnd piece], faults⟩ ∧
        (stepsBetween source p q).filterMap Step.token? =
          tokens.map (Token.later (before.toList.count '\n')) ∧
        (stepsBetween source p q).filterMap Step.fault? =
          faults.map (Fault.later (before.toList.count '\n')) := by
  obtain ⟨done, rest, hsource, rfl⟩ := hp.exists_split
  obtain ⟨done', later, hsource', rfl⟩ := hq.exists_split
  obtain ⟨middle, rfl⟩ := exists_middle (hsource.symm.trans hsource') hle
  rw [List.append_assoc] at hsource'
  have hchars := Lexeme.flatMap_chars_sequence source.toList
  have hpiece := Lexeme.sequence_of_infix hsource'
  have hbetween := stepsBetween_eq hsource'
  rw [hsource', List.flatMap_append, List.flatMap_append] at hchars
  rw [List.flatMap_append, byteLength_append]
  generalize done.flatMap Lexeme.chars = before at *
  have hend := scan_eq_steps (String.ofList (middle.flatMap Lexeme.chars))
  rw [steps, String.toList_ofList, hpiece] at hend
  refine ⟨String.ofList before, String.ofList (middle.flatMap Lexeme.chars),
    String.ofList (later.flatMap Lexeme.chars), ?_, rfl, ?_, _, _, hend, ?_, ?_⟩
  · rw [← String.ofList_append, ← String.ofList_append, List.append_assoc, hchars,
      String.ofList_toList]
  · exact String.utf8ByteSize_append
  · rw [hbetween, filterMap_token?_stepsFrom, filterMap_token?_stepsFrom, ← tokensFrom_add,
      String.toList_ofList]
    rfl
  · rw [hbetween, filterMap_fault?_stepsFrom, filterMap_fault?_stepsFrom, ← faultsFrom_add,
      String.toList_ofList]
    rfl

/-- The second line of a source, up to the newline that ends its comment. -/
theorem scan_piece_line :
    let source := "é\n12.x// c\n@"
    ∃ before piece after : String, source = before ++ piece ++ after ∧
      before.utf8ByteSize = 3 ∧ (before ++ piece).utf8ByteSize = 11 ∧
      ∃ tokens, scan piece = ⟨tokens ++ [Token.atEnd piece], []⟩ ∧
        tokens.map Token.lexeme = ["12", ".", "x"] := by
  intro source
  have hp : Boundary source 3 := by decide +kernel
  have hq : Boundary source 11 := by decide +kernel
  obtain ⟨before, piece, after, hsource, hbefore, hpiece, tokens, faults, hscan, ht, hf⟩ :=
    scan_piece hp hq (by decide)
  have hnone : (stepsBetween source 3 11).filterMap Step.fault? = [] := by decide +kernel
  have hlexemes : ((stepsBetween source 3 11).filterMap Step.token?).map Token.lexeme =
      ["12", ".", "x"] := by decide +kernel
  obtain rfl := List.map_eq_nil_iff.mp (hf.symm.trans hnone)
  rw [ht, List.map_map] at hlexemes
  exact ⟨before, piece, after, hsource, hbefore, hpiece, tokens, hscan, hlexemes⟩

end LoxLexis
