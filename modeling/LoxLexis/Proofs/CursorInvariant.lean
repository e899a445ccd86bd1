import LoxLexis.Proofs.CursorSteps

/-!
What holds of a scan by byte offsets between any two of its steps: its offsets are the lengths of
texts, its lexeme has the form its phase asks for, and what the scan by lexemes finds in the rest
of the source is just what it has not found yet.
-/
namespace LoxLexis
open Alphabet

theorem textBetween?_byteLength {source : String} {before text after : List Char}
    (h : before ++ (text ++ after) = source.toList) :
    textBetween? source (byteLength before) (byteLength (before ++ text)) =
      some (String.ofList text) := by
  refine textBetween?_eq_some_iff.mpr ⟨String.ofList before, String.ofList after, ?_, rfl, ?_⟩
  · rw [← String.ofList_append, ← String.ofList_append, h, String.ofList_toList]
  · rw [← String.ofList_append]
    rfl

/-- What has been taken of a lexeme, and what is to come, in each phase within one. -/
inductive Phase.Within : Phase → List Char → List Char → Prop where
  | opening {d : Char} {rest : List Char} : Within .opening [] (d :: rest)
  | mark {d : Char} {m : Mark} {rest : List Char} : Mark.ofChar? d = some m →
      Within (.mark m) [d] rest
  | comment {body rest : List Char} : '\n' ∉ body → Within .comment ('/' :: '/' :: body) rest
  | string {body rest : List Char} : '"' ∉ body → Within .string ('"' :: body) rest
  | whole {whole rest : List Char} : Digits whole → Within .whole whole rest
  | fraction {whole fraction rest : List Char} : Digits whole → (∀ d ∈ fraction, d.isDigit) →
      (fraction = [] → ∃ d ∈ rest.head?, d.isDigit) →
      Within .fraction (whole ++ '.' :: fraction) rest
  | word {text rest : List Char} : Word text → Within .word text rest
  | closing {k : Category} {piece rest : List Char} {kind : Kind} {literal : Option Literal} :
      IsLongest k piece rest → Denotes piece kind literal →
      Within (.closing kind literal) piece rest

/-- Some of a lexeme has been taken or is to come. -/
theorem Phase.Within.length_pos {phase : Phase} {piece rest : List Char}
    (h : phase.Within piece rest) : 0 < piece.length + rest.length := by
  rw [← List.length_append]
  apply List.length_pos_of_ne_nil
  cases h with
  | opening | mark | comment | string => exact List.cons_ne_nil _ _
  | whole hw => exact List.append_ne_nil_of_left_ne_nil hw.1 _
  | fraction => simp
  | word hw => exact List.append_ne_nil_of_left_ne_nil hw.ne_nil _
  | closing hl => exact List.append_ne_nil_of_left_ne_nil hl.spells.ne_nil _

theorem Mark.within_of_continuation? {c d : Char} {m : Mark} {phase : Phase}
    (hm : Mark.ofChar? c = some m) (h : m.continuation? = some (d, phase)) (rest : List Char) :
    phase.Within [c, d] rest := by
  have hspelling := Mark.spelling_of_ofChar? hm
  by_cases hslash : m = .slash
  · rw [continuation?, if_pos hslash] at h
    cases h
    rw [hslash] at hspelling
    obtain rfl : '/' = c := (List.cons.inj hspelling).1
    exact .comment List.not_mem_nil
  · rw [continuation?, if_neg hslash] at h
    obtain ⟨wider, hwider, hphase⟩ := Option.map_eq_some_iff.mp h
    cases hphase
    have hwide := Mark.spelling_of_withEqual? hwider
    rw [hspelling] at hwide
    have hlongest : IsLongest (.mark wider) wider.spelling rest := by
      rw [isLongest_mark_iff]
      cases m <;> cases hwider <;> simp [withEqual?]
    have hdenotes : Denotes wider.spelling (.mark wider) none := .mark wider
    rw [hwide] at hlongest hdenotes
    exact .closing hlongest hdenotes

/-- A mark that does not go on is by itself. -/
theorem Mark.isLongest_of_continuation? {m : Mark} {rest : List Char}
    (h : ∀ d phase, m.continuation? = some (d, phase) → rest.head? ≠ some d) :
    IsLongest (.mark m) m.spelling rest := by
  rw [isLongest_mark_iff]
  refine ⟨?_, fun hwider => ?_⟩
  · rintro rfl _ hd rfl
    exact h '/' .comment rfl hd
  · rintro _ hd rfl
    have hslash : m ≠ .slash := by
      rintro rfl
      cases hwider
    obtain ⟨wider, hwider⟩ := Option.isSome_iff_exists.mp hwider
    have hcontinuation : m.continuation? = some ('=', .closing (.mark wider) none) := by
      rw [continuation?, if_neg hslash, hwider]
      rfl
    exact h _ _ hcontinuation hd

/-- How far a phase is from the next character or the end, at most. -/
@[simp] def Phase.weight : Phase → Nat
  | .ended => 0
  | .opening => 1
  | .between => 2
  | .closing _ _ => 3
  | _ => 4

theorem Phase.weight_le (phase : Phase) : phase.weight ≤ 4 := by
  cases phase <;> simp

namespace Cursor
variable {σ : Type} {report : σ → Fault → σ} {sink : σ} {source : String}
  {before piece rest : List Char} {c : Cursor σ}

/-- `piece` is the part of its lexeme that the cursor has taken, `before` stands in front of the
lexeme, and `rest` is to come. -/
structure At (source : String) (before piece rest : List Char) (c : Cursor σ) : Prop where
  whole : before ++ (piece ++ rest) = source.toList
  start : c.start = byteLength before
  current : c.current = byteLength (before ++ piece)
  line : c.line = lineAfter (before ++ piece)
  startLine : c.startLine = lineAfter before

namespace At

theorem lexeme_text (h : c.At source before piece rest) :
    textBetween? source c.start c.current = some (String.ofList piece) := by
  rw [h.start, h.current]
  exact textBetween?_byteLength h.whole

theorem ahead_text (h : c.At source before piece rest) :
    textBetween? source c.current source.utf8ByteSize = some (String.ofList rest) := by
  have hwhole : (before ++ piece) ++ (rest ++ []) = source.toList := by
    rw [List.append_nil, List.append_assoc, h.whole]
  have htext := textBetween?_byteLength hwhole
  rwa [List.append_assoc, h.whole, byteLength_toList, ← h.current] at htext

theorem lexeme_eq (h : c.At source before piece rest) :
    c.lexeme source = .ok (String.ofList piece) := by
  rw [lexeme, h.lexeme_text]

theorem ahead_eq (h : c.At source before piece rest) : c.ahead source = .ok rest := by
  rw [ahead, h.ahead_text]
  exact congrArg Except.ok String.toList_ofList

theorem size_eq (h : c.At source before piece rest) :
    source.utf8ByteSize = c.current + byteLength rest := by
  rw [h.current, ← byteLength_append, List.append_assoc, h.whole, byteLength_toList]

theorem length_eq (h : c.At source before piece rest) :
    source.length = before.length + piece.length + rest.length := by
  rw [← String.length_toList, ← h.whole, List.length_append, List.length_append, Nat.add_assoc]

private theorem line_eq (h : c.At source before piece rest) :
    c.line = c.startLine + piece.count '\n' := by
  rw [h.line, h.startLine, lineAfter_append]

theorem start_lt_current (h : c.At source before piece rest) (hpiece : piece ≠ []) :
    c.start < c.current := by
  have hpos := byteLength_pos hpiece
  rw [h.start, h.current, byteLength_append]
  omega

private theorem take {d : Char} (h : c.At source before piece (d :: rest)) :
    (c.take d).At source before (piece ++ [d]) rest where
  whole := by rw [List.append_assoc, List.singleton_append, h.whole]
  start := h.start
  current := by
    have hd : byteLength [d] = d.utf8Size := byteLength_cons d []
    rw [← List.append_assoc, byteLength_append, hd, ← h.current]
    rfl
  line := by
    have hd : [d].count '\n' = if d = '\n' then 1 else 0 := by simp [List.count_singleton]
    rw [← List.append_assoc, lineAfter_append, hd, ← h.line]
    rfl
  startLine := h.startLine

theorem closeString_eq {body : List Char} (h : c.At source before ('"' :: (body ++ ['"'])) rest) :
    c.closeString source =
      .ok (c.enter (.closing .string (some (.string (String.ofList body))))) := by
  have hbody : unquoted? (String.ofList ('"' :: (body ++ ['"']))).toList = some body := by
    rw [String.toList_ofList, unquoted?_eq_some_iff]
  simp only [closeString, h.lexeme_eq, bind, Except.bind, hbody]
  rfl

theorem closeNumber_eq (h : c.At source before piece rest) (hs : Spells .number piece) :
    c.closeNumber source =
      .ok (c.enter (.closing .number (some (.number (Lexeme.numeralValue piece))))) := by
  simp only [closeNumber, h.lexeme_eq, bind, Except.bind, String.toList_ofList,
    isNumeral_iff.mpr hs, if_true]
  rfl

end At

/-- All that the scan finds but for a text, the first line of which is given, has been found. -/
def Lacks (report : σ → Fault → σ) (sink : σ) (source : String) (line : Nat) (text : List Char)
    (c : Cursor σ) : Prop :=
  ∃ faults, scan source = ⟨c.tokens, faults⟩ ++ scanFrom line text ∧
    c.sink = faults.foldl report sink

private theorem Lacks.add {line line' : Nat} {text text' : List Char} {tokens : List Token}
    {faults : List Fault} {next : Cursor σ} (h : c.Lacks report sink source line text)
    (hscan : scanFrom line text = ⟨tokens, faults⟩ ++ scanFrom line' text')
    (htokens : next.tokens = c.tokens ++ tokens) (hsink : next.sink = faults.foldl report c.sink) :
    next.Lacks report sink source line' text' := by
  obtain ⟨found, hfound, hheld⟩ := h
  refine ⟨found ++ faults, ?_, ?_⟩
  · rw [hfound, hscan, ← Scan.append_assoc, htokens]
    rfl
  · rw [hsink, hheld, List.foldl_append]

/-- Within a lexeme. Each lexeme begun before it took a character at least. -/
structure Amid (report : σ → Fault → σ) (sink : σ) (source : String)
    (before piece rest : List Char) (c : Cursor σ) : Prop
    extends c.At source before piece rest where
  lacks : c.Lacks report sink source c.startLine (piece ++ rest)
  begun_le : c.begun ≤ before.length + 1

/-- What holds of a cursor that a scan comes through. -/
inductive Holds (report : σ → Fault → σ) (sink : σ) (source : String) (c : Cursor σ) : Prop where
  | between {before piece rest : List Char} : c.phase = .between → c.At source before piece rest →
      c.Lacks report sink source c.line rest → c.begun ≤ (before ++ piece).length →
      (0 < c.begun → piece ≠ []) → Holds report sink source c
  | amid {before piece rest : List Char} : c.Amid report sink source before piece rest →
      c.phase.Within piece rest → Holds report sink source c
  | ended {before piece : List Char} : c.phase = .ended → c.At source before piece [] →
      (c.tokens, c.sink) = scanInto report sink source → c.begun ≤ (before ++ piece).length →
      Holds report sink source c

theorem holds_initial (report : σ → Fault → σ) (sink : σ) (source : String) :
    (initial sink).Holds report sink source := by
  have hat : (initial sink).At source [] [] source.toList := ⟨rfl, rfl, rfl, rfl, rfl⟩
  have hlacks : (initial sink).Lacks report sink source 1 source.toList :=
    ⟨[], scan_eq_scanFrom source, rfl⟩
  exact .between rfl hat hlacks (Nat.le_refl _) fun h => absurd h (Nat.lt_irrefl 0)

namespace Amid

theorem take {d : Char} (h : c.Amid report sink source before piece (d :: rest)) :
    (c.take d).Amid report sink source before (piece ++ [d]) rest where
  toAt := h.toAt.take
  lacks := by
    have hlacks := h.lacks
    rw [List.append_cons] at hlacks
    exact hlacks
  begun_le := h.begun_le

theorem holds_enter {phase : Phase} (h : c.Amid report sink source before piece rest)
    (hphase : phase.Within piece rest) : (c.enter phase).Holds report sink source :=
  .amid { h with } hphase

private theorem holds_done {tokens : List Token} {faults : List Fault} {next : Cursor σ}
    (h : c.Amid report sink source before piece rest) (hpiece : piece ≠ [])
    (hscan : scanFrom c.startLine (piece ++ rest) = ⟨tokens, faults⟩ ++ scanFrom c.line rest)
    (hnext : next = { c with
      phase := .between, tokens := c.tokens ++ tokens, sink := faults.foldl report c.sink }) :
    next.Holds report sink source := by
  subst hnext
  have hbegun : c.begun ≤ (before ++ piece).length := by
    have := h.begun_le
    have := List.length_pos_of_ne_nil hpiece
    rw [List.length_append]
    omega
  exact .between rfl { h with } (h.lacks.add hscan rfl rfl) hbegun fun _ => hpiece

theorem holds_gap {k : Category} (h : c.Amid report sink source before piece rest)
    (hl : IsLongest k piece rest) (hk : k = .blank ∨ k = .comment) :
    (c.enter .between).Holds report sink source := by
  have hscan : scanFrom c.startLine (piece ++ rest) = ⟨[], []⟩ ++ scanFrom c.line rest := by
    rw [scanFrom_gap _ hl hk, ← h.line_eq]
    rfl
  apply h.holds_done hl.spells.ne_nil hscan
  rw [List.append_nil]
  rfl

theorem holds_token {k : Category} {kind : Kind} {literal : Option Literal}
    (h : c.Amid report sink source before piece rest) (hl : IsLongest k piece rest)
    (hd : Denotes piece kind literal) :
    Holds report sink source { c with
      phase := .between
      tokens := c.tokens ++ [⟨kind, String.ofList piece, literal, c.startLine⟩] } := by
  have hscan := scanFrom_token c.startLine hl hd
  rw [← h.line_eq] at hscan
  exact h.holds_done hl.spells.ne_nil hscan rfl

private theorem holds_fault {f : Fault} (h : c.Amid report sink source before piece rest)
    (hpiece : piece ≠ [])
    (hscan : scanFrom c.startLine (piece ++ rest) = ⟨[], [f]⟩ ++ scanFrom c.line rest) :
    (c.fail report f).Holds report sink source := by
  apply h.holds_done hpiece hscan
  rw [List.append_nil]
  rfl

private theorem holds_stray {d : Char} (h : c.Amid report sink source before [d] rest)
    (hu : Unmatched (d :: rest)) (hd : d ≠ '"') :
    (c.fail report (.unexpectedCharacter d c.line)).Holds report sink source := by
  have hline : c.startLine = c.line := by
    rw [h.line_eq, List.count_eq_zero.mpr fun hm => hu.ne_newline (List.mem_singleton.mp hm).symm,
      Nat.add_zero]
  apply h.holds_fault (List.cons_ne_nil _ _)
  rw [hline]
  exact scanFrom_stray c.line hu hd

theorem holds_openString {body : List Char}
    (h : c.Amid report sink source before ('"' :: body) []) (hbody : '"' ∉ body) :
    (c.fail report (.unterminatedString c.line)).Holds report sink source := by
  have hline : c.line = c.startLine + body.count '\n' := by
    rw [h.line_eq]
    simp
  apply h.holds_fault (List.cons_ne_nil _ _)
  rw [List.append_nil, scanFrom_openString _ hbody, scanFrom_nil, hline]
  rfl

/-- Whatever the first character of a lexeme is, it is seen to. -/
theorem holds_sort {d : Char} (h : c.Amid report sink source before [d] rest) :
    (c.sort report d).Holds report sink source := by
  by_cases hb : isBlank d = true
  · rw [sort, if_pos hb]
    exact h.holds_gap (isLongest_blank hb rest) (Or.inl rfl)
  rw [sort, if_neg hb]
  by_cases hq : d = '"'
  · subst hq
    exact h.holds_enter (.string List.not_mem_nil)
  rw [if_neg (by simpa using hq)]
  by_cases hd : d.isDigit = true
  · rw [if_pos hd]
    exact h.holds_enter (.whole ⟨List.cons_ne_nil _ _, by simpa using hd⟩)
  rw [if_neg hd]
  by_cases hw : isWordStart d = true
  · rw [if_pos hw]
    exact h.holds_enter (.word (.mk (isWordStart_iff.mp hw) (by simp)))
  rw [if_neg hw]
  cases hm : Mark.ofChar? d with
  | some m => exact h.holds_enter (.mark hm)
  | none =>
    have hfirst : Lexeme.first d rest = (⟨.stray, d, []⟩, rest) := by
      simp [Lexeme.first, hb, hq, hd, hw, hm]
    exact h.holds_stray (Lexeme.unmatched_of_isFault (by rw [hfirst]; rfl)) hq

end Amid

end Cursor

end LoxLexis
