import LoxLexis.Proofs.CursorInvariant

/-! A scan by byte offsets never slips. It comes to an end and finds what a scan finds. -/
namespace LoxLexis
open Alphabet

private theorem not_mem_concat {mark d : Char} {body : List Char} (hbody : mark ∉ body)
    (hd : (d != mark) = true) : mark ∉ body ++ [d] := by
  rw [List.mem_append, List.mem_singleton, not_or]
  exact ⟨hbody, (bne_iff_ne.mp hd).symm⟩

namespace Cursor
variable {σ : Type} {report : σ → Fault → σ} {sink : σ} {source : String}
  {before piece rest : List Char} {c : Cursor σ}

/-- Falls with every step. -/
def toGo (source : String) (c : Cursor σ) : Nat :=
  4 * (source.utf8ByteSize - c.current) + c.phase.weight

private theorem At.toGo_lt_of_take {d : Char} {next : Cursor σ}
    (h : c.At source before piece (d :: rest))
    (hc : 0 < c.phase.weight) (hnext : next.current = c.current + d.utf8Size) :
    next.toGo source < c.toGo source := by
  have hd := d.utf8Size_pos
  have hsize := h.size_eq
  have hweight := next.phase.weight_le
  rw [toGo, toGo, hnext, hsize, byteLength_cons]
  omega

/-- A step succeeds, and what follows it is nearer to the end. -/
def Leads (report : σ → Fault → σ) (sink : σ) (source : String) (c : Cursor σ)
    (result : Except Slip (Cursor σ)) : Prop :=
  ∃ next, result = .ok next ∧ next.Holds report sink source ∧ next.toGo source < c.toGo source

private theorem leads_take {d : Char} {next : Cursor σ} (hc : c.At source before piece (d :: rest))
    (hphase : 0 < c.phase.weight) (hnext : next.Holds report sink source)
    (hcurrent : next.current = c.current + d.utf8Size) :
    c.Leads report sink source (.ok next) :=
  ⟨next, rfl, hnext, hc.toGo_lt_of_take hphase hcurrent⟩

private theorem leads_enter {phase : Phase} (hnext : (c.enter phase).Holds report sink source)
    (hweight : phase.weight < c.phase.weight) :
    c.Leads report sink source (.ok (c.enter phase)) :=
  ⟨_, rfl, hnext, Nat.add_lt_add_left hweight _⟩

namespace Amid

private theorem leads_takeIf {test : Char → Bool} {otherwise : List Char → Except Slip (Cursor σ)}
    {phase : Phase} (h : c.Amid report sink source before piece rest) (hphase : c.phase = phase)
    (hpos : 0 < phase.weight)
    (htaken : ∀ d later, test d = true → phase.Within (piece ++ [d]) later)
    (hstop : (∀ d ∈ rest.head?, test d = false) → c.Leads report sink source (otherwise rest)) :
    c.Leads report sink source (c.takeIf source test otherwise) := by
  by_cases hnone : ∀ d ∈ rest.head?, test d = false
  · rw [takeIf_of_forall_head h.ahead_eq hnone]
    exact hstop hnone
  · obtain ⟨d, hhead, hd⟩ : ∃ d ∈ rest.head?, test d = true := by simpa using hnone
    obtain ⟨later, rfl⟩ := List.head?_eq_some_iff.mp hhead
    rw [takeIf_of_head h.ahead_eq hd]
    have hwithin : (c.take d).phase.Within (piece ++ [d]) later := hphase ▸ htaken d later hd
    exact leads_take h.toAt (hphase ▸ hpos) (.amid h.take hwithin) rfl

private theorem leads_opening {d : Char} (h : c.Amid report sink source before [] (d :: rest))
    (hphase : c.phase = .opening) : c.Leads report sink source (c.advance report source) := by
  simp only [advance, hphase, h.ahead_eq, bind, Except.bind]
  exact leads_take h.toAt (by simp [hphase]) h.take.holds_sort (sort_current report d _)

private theorem leads_mark {d : Char} {m : Mark} (h : c.Amid report sink source before [d] rest)
    (hm : Mark.ofChar? d = some m) (hphase : c.phase = .mark m) :
    c.Leads report sink source (c.advance report source) := by
  have halone (hl : IsLongest (.mark m) m.spelling rest) :
      c.Leads report sink source (.ok (c.enter (.closing (.mark m) none))) := by
    have hd : Denotes m.spelling (.mark m) none := .mark m
    rw [Mark.spelling_of_ofChar? hm] at hl hd
    exact leads_enter (h.holds_enter (.closing hl hd)) (by simp [hphase])
  simp only [advance, hphase]
  cases hnext : m.continuation? with
  | none => exact halone (Mark.isLongest_of_continuation? (by simp [hnext]))
  | some next =>
    obtain ⟨e, phase⟩ := next
    simp only [h.ahead_eq, bind, Except.bind]
    split
    case isTrue hhead =>
      obtain ⟨rest, rfl⟩ := List.head?_eq_some_iff.mp hhead
      have hwithin := Mark.within_of_continuation? hm hnext rest
      exact leads_take h.toAt (by simp [hphase]) (h.take.holds_enter hwithin) rfl
    case isFalse hhead =>
      exact halone (Mark.isLongest_of_continuation? (by simp [hnext, hhead]))

private theorem leads_comment {body : List Char}
    (h : c.Amid report sink source before ('/' :: '/' :: body) rest) (hbody : '\n' ∉ body)
    (hphase : c.phase = .comment) : c.Leads report sink source (c.advance report source) := by
  simp only [advance, hphase]
  apply h.leads_takeIf hphase (by simp)
  · intro d later hd
    exact .comment (not_mem_concat hbody hd)
  · intro hstop
    have hlongest : IsLongest .comment ('/' :: '/' :: body) rest :=
      (isLongest_comment_iff hbody).mpr (by simpa using hstop)
    exact leads_enter (h.holds_gap hlongest (Or.inr rfl)) (by simp [hphase])

private theorem leads_string {body : List Char}
    (h : c.Amid report sink source before ('"' :: body) rest) (hbody : '"' ∉ body)
    (hphase : c.phase = .string) : c.Leads report sink source (c.advance report source) := by
  simp only [advance, hphase]
  apply h.leads_takeIf hphase (by simp)
  · intro d later hd
    exact .string (not_mem_concat hbody hd)
  · intro hstop
    cases rest with
    | nil => exact ⟨_, rfl, h.holds_openString hbody, by simp [toGo, fail, hphase]⟩
    | cons d later =>
      -- The loop stops at a quote only, so it is a second one that is taken here.
      obtain rfl : d = '"' := by simpa using hstop
      have hclosed := h.take
      rw [if_pos (by simp), hclosed.closeString_eq]
      have hwithin := Phase.Within.closing (isLongest_string hbody later) (.string hbody)
      exact leads_take h.toAt (by simp [hphase]) (hclosed.holds_enter hwithin) rfl

private theorem leads_closeNumber (h : c.Amid report sink source before piece rest)
    (hl : IsLongest .number piece rest) (hweight : 3 < c.phase.weight) :
    c.Leads report sink source (c.closeNumber source) := by
  rw [h.closeNumber_eq hl.spells]
  exact leads_enter (h.holds_enter (.closing hl hl.spells.denotes_number)) hweight

private theorem leads_whole (h : c.Amid report sink source before piece rest) (hw : Digits piece)
    (hphase : c.phase = .whole) : c.Leads report sink source (c.advance report source) := by
  simp only [advance, hphase]
  apply h.leads_takeIf hphase (by simp)
  · intro d later hd
    exact .whole (hw.append (by simpa using hd))
  · intro hstop
    split
    case isTrue hpoint =>
      obtain ⟨hhead, hdigit⟩ := hpoint
      obtain ⟨later, rfl⟩ := List.head?_eq_some_iff.mp hhead
      -- The digit seen behind the point is what the next loop begins with.
      have hnext : ∃ d ∈ later.head?, d.isDigit := by
        simpa [List.head?_eq_getElem?, Option.any_eq_true] using hdigit
      have hwithin : Phase.Within .fraction (piece ++ ['.']) later :=
        .fraction hw (by simp) fun _ => hnext
      exact leads_take h.toAt (by simp [hphase]) (h.take.holds_enter hwithin) rfl
    case isFalse hpoint =>
      have hlongest : IsLongest .number piece rest := by
        refine (isLongest_integer_iff hw).mpr ⟨hstop, fun d more hrest => ?_⟩
        simpa [hrest] using hpoint
      exact h.leads_closeNumber hlongest (by simp [hphase])

private theorem leads_fraction {whole fraction : List Char}
    (h : c.Amid report sink source before (whole ++ '.' :: fraction) rest) (hw : Digits whole)
    (hf : ∀ d ∈ fraction, d.isDigit) (hnext : fraction = [] → ∃ d ∈ rest.head?, d.isDigit)
    (hphase : c.phase = .fraction) : c.Leads report sink source (c.advance report source) := by
  simp only [advance, hphase]
  apply h.leads_takeIf hphase (by simp)
  · intro d later hd
    rw [List.append_assoc, List.cons_append]
    have hlonger : ∀ e ∈ fraction ++ [d], e.isDigit := by
      simpa [or_imp, forall_and, hd] using hf
    exact .fraction hw hlonger fun hnil => absurd hnil (by simp)
  · intro hstop
    have hne : fraction ≠ [] := by
      intro hnil
      obtain ⟨d, hd, hdigit⟩ := hnext hnil
      rw [hstop d hd] at hdigit
      cases hdigit
    have hlongest := (isLongest_decimal_iff hw ⟨hne, hf⟩).mpr hstop
    exact h.leads_closeNumber hlongest (by simp [hphase])

private theorem leads_closeWord (h : c.Amid report sink source before piece rest) (hw : Word piece)
    (hl : IsLongest .word piece rest) (hweight : 3 < c.phase.weight) :
    c.Leads report sink source (c.closeWord source) := by
  simp only [closeWord, h.lexeme_eq, bind, Except.bind]
  cases hk : Keyword.ofSpelling? (String.ofList piece) with
  | some k =>
    have hpiece : piece = k.spelling.toList := by
      rw [← Keyword.ofSpelling?_eq_some_iff.mp hk, String.toList_ofList]
    exact leads_enter (h.holds_enter (.closing hl (hpiece ▸ .keyword k))) hweight
  | none =>
    refine leads_enter (h.holds_enter (.closing hl (.identifier hw fun k hk' => ?_))) hweight
    rw [← hk', String.ofList_toList, Keyword.ofSpelling?_spelling] at hk
    cases hk

private theorem leads_word (h : c.Amid report sink source before piece rest) (hw : Word piece)
    (hphase : c.phase = .word) : c.Leads report sink source (c.advance report source) := by
  simp only [advance, hphase]
  apply h.leads_takeIf hphase (by simp)
  · intro d later hd
    exact .word (hw.append (by simpa [isWordPart_iff] using hd))
  · intro hstop
    exact h.leads_closeWord hw ((isLongest_word_iff hw).mpr hstop) (by simp [hphase])

private theorem leads_closing {k : Category} {kind : Kind} {literal : Option Literal}
    (h : c.Amid report sink source before piece rest) (hl : IsLongest k piece rest)
    (hd : Denotes piece kind literal) (hphase : c.phase = .closing kind literal) :
    c.Leads report sink source (c.advance report source) := by
  simp only [advance, hphase, push, h.lexeme_eq, bind, Except.bind]
  refine ⟨_, rfl, h.holds_token hl hd, ?_⟩
  rw [toGo, toGo, hphase]
  exact Nat.add_lt_add_left (Nat.lt_succ_self 2) _

/-- Within a lexeme every step succeeds. -/
theorem leads_advance (h : c.Amid report sink source before piece rest)
    (hwithin : c.phase.Within piece rest) :
    c.Leads report sink source (c.advance report source) := by
  generalize hphase : c.phase = phase at hwithin
  cases hwithin with
  | opening => exact h.leads_opening hphase
  | mark hm => exact h.leads_mark hm hphase
  | comment hbody => exact h.leads_comment hbody hphase
  | string hbody => exact h.leads_string hbody hphase
  | whole hw => exact h.leads_whole hw hphase
  | fraction hw hf hnext => exact h.leads_fraction hw hf hnext hphase
  | word hw => exact h.leads_word hw hphase
  | closing hl hd => exact h.leads_closing hl hd hphase

end Amid

private theorem leads_proceed (hphase : c.phase = .between) (hat : c.At source before piece rest)
    (hlacks : c.Lacks report sink source c.line rest)
    (hbegun : c.begun ≤ (before ++ piece).length) :
    c.Leads report sink source (.ok (c.proceed source)) := by
  have hsize := hat.size_eq
  refine ⟨_, rfl, ?_⟩
  cases rest with
  | nil =>
    have hend : source.utf8ByteSize ≤ c.current := Nat.le_of_eq hsize
    rw [proceed, if_pos hend]
    refine ⟨.ended rfl { hat with } ?_ hbegun, by simp [toGo, hphase]⟩
    obtain ⟨faults, hscan, hsink⟩ := hlacks
    rw [scanInto_eq, hscan, scanFrom_nil, Scan.tokens_append, Scan.faults_append, List.append_nil,
      ← hsink]
  | cons d rest =>
    have hmore : ¬ source.utf8ByteSize ≤ c.current := by
      have hd := byteLength_pos (List.cons_ne_nil d rest)
      omega
    rw [proceed, if_neg hmore]
    have hopened : ({ c with
        phase := .opening, start := c.current, startLine := c.line, begun := c.begun + 1 } :
        Cursor σ).At source (before ++ piece) [] (d :: rest) := by
      refine ⟨?_, hat.current, ?_, ?_, hat.line⟩
      · rw [List.nil_append, List.append_assoc, hat.whole]
      · rw [List.append_nil, ← hat.current]
      · rw [List.append_nil, ← hat.line]
    exact ⟨.amid ⟨hopened, hlacks, Nat.succ_le_succ hbegun⟩ .opening, by simp [toGo, hphase]⟩

/-- A step that is not the last succeeds and leads on. -/
theorem Holds.leads (h : c.Holds report sink source) (hphase : c.phase ≠ .ended) :
    c.Leads report sink source (c.advance report source) := by
  cases h with
  | between hbetween hat hlacks hbegun =>
    have hstep : c.advance report source = .ok (c.proceed source) := by
      simp only [advance, hbetween]
      rfl
    rw [hstep]
    exact leads_proceed hbetween hat hlacks hbegun
  | amid hamid hwithin => exact hamid.leads_advance hwithin
  | ended hended => exact absurd hended hphase

private theorem advance_of_ended (h : c.phase = .ended) : c.advance report source = .ok c := by
  simp only [advance, h]
  rfl

private theorem Holds.exists_advance (h : c.Holds report sink source) :
    ∃ next, c.advance report source = .ok next ∧ next.Holds report sink source := by
  by_cases hphase : c.phase = .ended
  · exact ⟨c, advance_of_ended hphase, h⟩
  · obtain ⟨next, hstep, hnext, -⟩ := h.leads hphase
    exact ⟨next, hstep, hnext⟩

private theorem Reached.holds (h : Reached report sink source c) : c.Holds report sink source := by
  induction h with
  | initial => exact holds_initial report sink source
  | advance _ hstep ih =>
    obtain ⟨next, hnext, hholds⟩ := ih.exists_advance
    rw [hstep] at hnext
    exact Except.ok.inj hnext ▸ hholds

/-- By induction on how far the cursor has to go. -/
theorem Reached.exists_ended (h : Reached report sink source c) :
    ∃ last, Reached report sink source last ∧ last.phase = .ended := by
  induction hn : c.toGo source using Nat.strongRecOn generalizing c with
  | _ n ih =>
    by_cases hphase : c.phase = .ended
    · exact ⟨c, h, hphase⟩
    · obtain ⟨next, hstep, -, hlt⟩ := h.holds.leads hphase
      exact ih _ (hn ▸ hlt) (.advance h hstep) rfl

private theorem Holds.eq_scanInto (h : c.Holds report sink source) (hphase : c.phase = .ended) :
    (c.tokens, c.sink) = scanInto report sink source := by
  cases h with
  | between hbetween =>
    rw [hphase] at hbetween
    cases hbetween
  | amid _ hwithin =>
    rw [hphase] at hwithin
    cases hwithin
  | ended _ _ heq => exact heq

/-- Both offsets are ends of characters, in order and within the source. The lines are counted by
the newlines before them. What is to be read at them can be read. -/
structure Placed (source : String) (c : Cursor σ) : Prop where
  start_le_current : c.start ≤ c.current
  current_le_size : c.current ≤ source.utf8ByteSize
  start_valid : (⟨c.start⟩ : String.Pos.Raw).IsValid source
  current_valid : (⟨c.current⟩ : String.Pos.Raw).IsValid source
  startLine_eq : ∃ text, textBetween? source 0 c.start = some text ∧
    c.startLine = 1 + text.toList.count '\n'
  line_eq : ∃ text, textBetween? source 0 c.current = some text ∧
    c.line = 1 + text.toList.count '\n'
  line_le_length : c.line ≤ source.length + 1
  line_le_size : c.line ≤ source.utf8ByteSize + 1
  lexeme : ∃ text, textBetween? source c.start c.current = some text
  ahead : ∃ text, textBetween? source c.current source.utf8ByteSize = some text

/-- Each lexeme is begun before the end of the source and takes at least one character of it, so
that there are no more of them than characters. A token is added for characters that denote what
it says. -/
structure Sound (source : String) (c : Cursor σ) : Prop extends c.Placed source where
  begun_le_length : c.begun ≤ source.length
  opening : c.phase = .opening → c.start = c.current ∧ c.current < source.utf8ByteSize
  between : c.phase = .between → 0 < c.begun → c.start < c.current
  closing : ∀ kind literal, c.phase = .closing kind literal → c.start < c.current ∧
    ∃ text, textBetween? source c.start c.current = some text ∧ Denotes text.toList kind literal

private theorem exists_textBetween?_zero (h : before ++ rest = source.toList) :
    ∃ text, textBetween? source 0 (byteLength before) = some text ∧
      lineAfter before = 1 + text.toList.count '\n' := by
  have hwhole : [] ++ (before ++ rest) = source.toList := h
  have htext : textBetween? source 0 (byteLength before) = some (String.ofList before) :=
    textBetween?_byteLength hwhole
  exact ⟨_, htext, by rw [String.toList_ofList, lineAfter]⟩

private theorem At.line_le (h : c.At source before piece rest) : c.line ≤ source.length + 1 := by
  have hcount : (before ++ piece).count '\n' ≤ (before ++ piece).length := List.count_le_length
  have hlength := h.length_eq
  rw [List.length_append] at hcount
  rw [h.line, lineAfter]
  omega

private theorem At.placed (h : c.At source before piece rest) : c.Placed source := by
  have hwhole : (before ++ piece) ++ rest = source.toList := by rw [List.append_assoc, h.whole]
  have hlength : source.length ≤ source.utf8ByteSize := by
    have := length_le_byteLength source.toList
    rwa [byteLength_toList, String.length_toList] at this
  constructor
  case start_le_current =>
    rw [h.start, h.current]
    exact byteLength_le_of_prefix (List.prefix_append _ _)
  case current_le_size =>
    rw [h.size_eq]
    exact Nat.le_add_right _ _
  case start_valid =>
    rw [h.start]
    exact isValid_byteLength h.whole
  case current_valid =>
    rw [h.current]
    exact isValid_byteLength hwhole
  case startLine_eq =>
    rw [h.start, h.startLine]
    exact exists_textBetween?_zero h.whole
  case line_eq =>
    rw [h.current, h.line]
    exact exists_textBetween?_zero hwhole
  case line_le_length => exact h.line_le
  case line_le_size => exact h.line_le.trans (Nat.succ_le_succ hlength)
  case lexeme => exact ⟨_, h.lexeme_text⟩
  case ahead => exact ⟨_, h.ahead_text⟩

private theorem At.begun_le_length (h : c.At source before piece rest)
    (hbegun : c.begun ≤ (before ++ piece).length) : c.begun ≤ source.length := by
  rw [List.length_append] at hbegun
  rw [h.length_eq]
  exact hbegun.trans (Nat.le_add_right _ _)

private theorem Amid.begun_le_length (h : c.Amid report sink source before piece rest)
    (hwithin : c.phase.Within piece rest) : c.begun ≤ source.length := by
  have hbegun := h.begun_le
  have hpos := hwithin.length_pos
  rw [h.length_eq]
  omega

private theorem Amid.sound (h : c.Amid report sink source before piece rest)
    (hwithin : c.phase.Within piece rest) : c.Sound source where
  toPlaced := h.placed
  begun_le_length := h.begun_le_length hwithin
  opening hphase := by
    rw [hphase] at hwithin
    cases hwithin
    have hcurrent := h.current
    rw [List.append_nil, ← h.start] at hcurrent
    rw [h.size_eq]
    exact ⟨hcurrent.symm, Nat.lt_add_of_pos_right (byteLength_pos (List.cons_ne_nil _ _))⟩
  between hphase := by
    rw [hphase] at hwithin
    cases hwithin
  closing kind literal hphase := by
    rw [hphase] at hwithin
    cases hwithin with
    | closing hl hd =>
      refine ⟨h.start_lt_current hl.spells.ne_nil, _, h.lexeme_text, ?_⟩
      rwa [String.toList_ofList]

private theorem Holds.sound (h : c.Holds report sink source) : c.Sound source := by
  cases h with
  | between hphase hat hlacks hbegun htaken =>
    exact ⟨hat.placed, hat.begun_le_length hbegun, by simp [hphase],
      fun _ hpos => hat.start_lt_current (htaken hpos), by simp [hphase]⟩
  | amid hamid hwithin => exact hamid.sound hwithin
  | ended hphase hat _ hbegun =>
    exact ⟨hat.placed, hat.begun_le_length hbegun, by simp [hphase], by simp [hphase],
      by simp [hphase]⟩

end Cursor

/-- Every cursor that a scan comes through is sound, and none slips: what the offsets are to cut out
of the source is there, a lexeme has a first character, a string its two quotes and a number its
digits. The scan ends, with the tokens and the faults of the scan by lexemes. -/
theorem cursors_sound {σ : Type} (report : σ → Fault → σ) (sink : σ) (source : String) :
    (∀ c, Cursor.Reached report sink source c →
      c.Sound source ∧ ∃ next, c.advance report source = .ok next) ∧
      ∃ last, Cursor.Reached report sink source last ∧ last.phase = .ended ∧
        (last.tokens, last.sink) = scanInto report sink source := by
  refine ⟨fun c hc => ?_, ?_⟩
  · obtain ⟨next, hstep, -⟩ := hc.holds.exists_advance
    exact ⟨hc.holds.sound, next, hstep⟩
  · have hinitial : Cursor.Reached report sink source (Cursor.initial sink) := .initial
    obtain ⟨last, hlast, hended⟩ := hinitial.exists_ended
    exact ⟨last, hlast, hended, hlast.holds.eq_scanInto hended⟩

end LoxLexis
