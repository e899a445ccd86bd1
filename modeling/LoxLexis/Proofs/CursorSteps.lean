import LoxLexis.Proofs.ScanParts

/-!
A scan that takes one character at a time and knows its source by byte offsets alone. An offset may
lie within a character or behind the end, and a text may lack the form it should have: where that
happens the scan slips and goes no further.
-/
namespace LoxLexis
open Alphabet

/-- The text between two byte offsets. There is none unless both are ends of characters, the second
no earlier than the first. -/
def textBetween? (source : String) (first past : Nat) : Option String := do
  let p ← source.pos? ⟨first⟩
  let q ← source.pos? ⟨past⟩
  (source.slice? p q).map String.Slice.copy

private theorem pos?_eq_some_iff {source : String} {offset : Nat} {p : source.Pos} :
    source.pos? ⟨offset⟩ = some p ↔ p.offset = ⟨offset⟩ := by
  rw [String.pos?, String.Slice.pos?]
  constructor
  · intro h
    split at h
    · obtain ⟨p, hp, rfl⟩ := Option.map_eq_some_iff.mp h
      cases hp
      rfl
    · cases h
  · intro h
    have hvalid : (⟨offset⟩ : String.Pos.Raw).isValidForSlice source.toSlice = true := by
      rw [← h]
      exact String.Pos.Raw.isValidForSlice_eq_true_iff.mpr p.toSlice.isValidForSlice
    rw [dif_pos hvalid, Option.map_some]
    exact congrArg some (String.Pos.ext h.symm)

private theorem slice?_eq_some_iff {source text : String} {p q : source.Pos} :
    (source.slice? p q).map String.Slice.copy = some text ↔
      ∃ before after, p.Splits before (text ++ after) ∧ q.Splits (before ++ text) after := by
  rw [← String.copy_slice_eq_iff_splits, String.slice?]
  split <;> simp_all

theorem textBetween?_eq_some_iff {source text : String} {first past : Nat} :
    textBetween? source first past = some text ↔
      ∃ before after, source = before ++ (text ++ after) ∧ before.utf8ByteSize = first ∧
        (before ++ text).utf8ByteSize = past := by
  simp only [textBetween?, Option.bind_eq_bind, Option.bind_eq_some_iff, pos?_eq_some_iff,
    slice?_eq_some_iff]
  constructor
  · rintro ⟨p, hp, q, hq, before, after, hfirst, hpast⟩
    rw [hfirst.offset_eq_rawEndPos] at hp
    rw [hpast.offset_eq_rawEndPos] at hq
    exact ⟨before, after, hfirst.eq_append, congrArg String.Pos.Raw.byteIdx hp,
      congrArg String.Pos.Raw.byteIdx hq⟩
  · rintro ⟨before, after, hsource, rfl, rfl⟩
    have hpast : source = (before ++ text) ++ after := by rw [hsource, String.append_assoc]
    have hp := String.Pos.splits_ofEqAppend hsource
    have hq := String.Pos.splits_ofEqAppend hpast
    exact ⟨_, hp.offset_eq_rawEndPos, _, hq.offset_eq_rawEndPos, before, after, hp, hq⟩

/-- There is no text within a character. -/
example : textBetween? "aé" 1 2 = none := by decide +kernel

/-- What stands between two quotes. -/
def unquoted? : List Char → Option (List Char)
  | '"' :: rest => if rest.getLast? = some '"' then some rest.dropLast else none
  | _ => none

theorem unquoted?_eq_some_iff {text body : List Char} :
    unquoted? text = some body ↔ text = '"' :: (body ++ ['"']) := by
  constructor
  · intro h
    unfold unquoted? at h
    split at h
    · split at h
      case isTrue hlast =>
        obtain ⟨front, rfl⟩ := List.getLast?_eq_some_iff.mp hlast
        rw [List.dropLast_concat] at h
        rw [Option.some.inj h]
      case isFalse => cases h
    · cases h
  · rintro rfl
    simp [unquoted?]

instance (text : List Char) : Decidable (Digits text) := inferInstanceAs (Decidable (_ ∧ _))

/-- Digits, or digits on both sides of a point. -/
def isNumeral (text : List Char) : Bool :=
  decide (Digits (text.takeWhile Char.isDigit)) &&
    match text.dropWhile Char.isDigit with
    | [] => true
    | point :: fraction => point == '.' && decide (Digits fraction)

theorem isNumeral_iff {text : List Char} : isNumeral text = true ↔ Spells .number text := by
  constructor
  · intro h
    have hparts := List.takeWhile_append_dropWhile (p := Char.isDigit) (l := text)
    unfold isNumeral at h
    generalize text.takeWhile Char.isDigit = whole at h hparts
    generalize text.dropWhile Char.isDigit = later at h hparts
    subst hparts
    obtain ⟨hwhole, hlater⟩ := Bool.and_eq_true_iff.mp h
    cases later with
    | nil =>
      rw [List.append_nil]
      exact .integer (of_decide_eq_true hwhole)
    | cons point fraction =>
      obtain ⟨hpoint, hfraction⟩ := Bool.and_eq_true_iff.mp hlater
      obtain rfl := beq_iff_eq.mp hpoint
      exact .decimal (of_decide_eq_true hwhole) (of_decide_eq_true hfraction)
  · intro h
    cases h with
    | integer hw =>
      have htake := List.takeWhile_eq_self_iff.mpr hw.2
      have hdrop := List.dropWhile_eq_nil_iff.mpr hw.2
      simp [isNumeral, htake, hdrop, hw]
    | decimal hw hf =>
      have hpoint : Char.isDigit '.' = false := by decide
      simp [isNumeral, List.takeWhile_append_of_pos hw.2, List.dropWhile_append_of_pos hw.2, hpoint,
        hw, hf]

theorem Spells.denotes_number {text : List Char} (h : Spells .number text) :
    Denotes text .number (some (.number (Lexeme.numeralValue text))) := by
  cases h with
  | integer hw =>
    rw [Lexeme.numeralValue_integer hw]
    exact .integer hw
  | decimal hw hf =>
    rw [Lexeme.numeralValue_decimal hw]
    exact .decimal hw hf

inductive Slip where
  /-- The offsets cut no text out of the source. -/
  | offsets
  /-- A lexeme begins where the source ends. -/
  | noCharacter
  /-- A string lacks one of its two quotes. -/
  | noQuotes
  /-- What is to be read as a number is none. -/
  | noNumeral
  deriving DecidableEq, Repr

inductive Phase where
  | between
  /-- The first character of a lexeme is taken. -/
  | opening
  /-- A mark may go on with a second character. -/
  | mark (m : Mark)
  | comment
  | string
  /-- The digits before a point. -/
  | whole
  /-- The digits behind a point. -/
  | fraction
  | word
  /-- The lexeme is complete, and its token is added. -/
  | closing (kind : Kind) (literal : Option Literal)
  | ended
  deriving DecidableEq, Repr

/-- The second character of a mark, and what becomes of it then. -/
def Mark.continuation? (m : Mark) : Option (Char × Phase) :=
  if m = .slash then some ('/', .comment)
  else m.withEqual?.map fun wider => ('=', .closing (.mark wider) none)

/-- A scan under way: where its lexeme starts and where it reads on, both in bytes, the lines there,
how many lexemes it has begun, the tokens found, and the sink of the faults. -/
structure Cursor (σ : Type) where
  phase : Phase
  start : Nat
  current : Nat
  line : Nat
  startLine : Nat
  begun : Nat
  tokens : List Token
  sink : σ

namespace Cursor
variable {σ : Type}

def initial (sink : σ) : Cursor σ := ⟨.between, 0, 0, 1, 1, 0, [], sink⟩

def enter (phase : Phase) (c : Cursor σ) : Cursor σ := { c with phase }

def take (d : Char) (c : Cursor σ) : Cursor σ :=
  { c with current := c.current + d.utf8Size, line := c.line + if d = '\n' then 1 else 0 }

/-- Hands on a fault and is done with the lexeme. -/
def fail (report : σ → Fault → σ) (f : Fault) (c : Cursor σ) : Cursor σ :=
  { c with phase := .between, sink := report c.sink f }

def lexeme (source : String) (c : Cursor σ) : Except Slip String :=
  match textBetween? source c.start c.current with
  | some text => .ok text
  | none => .error .offsets

def ahead (source : String) (c : Cursor σ) : Except Slip (List Char) :=
  match textBetween? source c.current source.utf8ByteSize with
  | some text => .ok text.toList
  | none => .error .offsets

def takeIf (source : String) (test : Char → Bool) (c : Cursor σ)
    (otherwise : List Char → Except Slip (Cursor σ)) : Except Slip (Cursor σ) := do
  let rest ← c.ahead source
  match rest.head?.filter test with
  | some d => return c.take d
  | none => otherwise rest

theorem takeIf_of_head {source : String} {test : Char → Bool} {c : Cursor σ}
    {otherwise : List Char → Except Slip (Cursor σ)} {d : Char} {rest : List Char}
    (h : c.ahead source = .ok (d :: rest)) (hd : test d = true) :
    c.takeIf source test otherwise = .ok (c.take d) := by
  have hfilter : (d :: rest).head?.filter test = some d := by simp [hd]
  simp only [takeIf, h, bind, Except.bind, hfilter]
  rfl

theorem takeIf_of_forall_head {source : String} {test : Char → Bool} {c : Cursor σ}
    {otherwise : List Char → Except Slip (Cursor σ)} {rest : List Char}
    (h : c.ahead source = .ok rest) (hrest : ∀ d ∈ rest.head?, test d = false) :
    c.takeIf source test otherwise = otherwise rest := by
  have hfilter : rest.head?.filter test = none :=
    Option.filter_eq_none_iff.mpr fun d hd => by simp [hrest d hd]
  simp only [takeIf, h, bind, Except.bind, hfilter]

/-- Between two lexemes: begins the next, or ends the scan. -/
def proceed (source : String) (c : Cursor σ) : Cursor σ :=
  if source.utf8ByteSize ≤ c.current then
    { c with phase := .ended, tokens := c.tokens ++ [⟨.endOfInput, "", none, c.line⟩] }
  else { c with phase := .opening, start := c.current, startLine := c.line, begun := c.begun + 1 }

/-- What the first character of a lexeme leads to, once it is taken. -/
def sort (report : σ → Fault → σ) (d : Char) (c : Cursor σ) : Cursor σ :=
  if isBlank d then c.enter .between
  else if d == '"' then c.enter .string
  else if d.isDigit then c.enter .whole
  else if isWordStart d then c.enter .word
  else match Mark.ofChar? d with
    | some m => c.enter (.mark m)
    | none => c.fail report (.unexpectedCharacter d c.line)

theorem sort_current (report : σ → Fault → σ) (d : Char) (c : Cursor σ) :
    (c.sort report d).current = c.current := by
  unfold sort
  split_ifs <;> first | rfl | (split <;> rfl)

def closeString (source : String) (c : Cursor σ) : Except Slip (Cursor σ) := do
  let text ← c.lexeme source
  match unquoted? text.toList with
  | some body => return c.enter (.closing .string (some (.string (String.ofList body))))
  | none => throw .noQuotes

def closeNumber (source : String) (c : Cursor σ) : Except Slip (Cursor σ) := do
  let text ← c.lexeme source
  if isNumeral text.toList then
    return c.enter (.closing .number (some (.number (Lexeme.numeralValue text.toList))))
  else throw .noNumeral

def closeWord (source : String) (c : Cursor σ) : Except Slip (Cursor σ) := do
  let text ← c.lexeme source
  match Keyword.ofSpelling? text with
  | some k => return c.enter (.closing (.keyword k) none)
  | none => return c.enter (.closing .identifier none)

def push (source : String) (kind : Kind) (literal : Option Literal) (c : Cursor σ) :
    Except Slip (Cursor σ) := do
  let text ← c.lexeme source
  return { c with phase := .between, tokens := c.tokens ++ [⟨kind, text, literal, c.startLine⟩] }

def advance (report : σ → Fault → σ) (source : String) (c : Cursor σ) : Except Slip (Cursor σ) :=
  match c.phase with
  | .between => return c.proceed source
  | .opening => do
    match ← c.ahead source with
    | [] => throw .noCharacter
    | d :: _ => return (c.take d).sort report d
  | .mark m =>
    match m.continuation? with
    | none => return c.enter (.closing (.mark m) none)
    | some (d, phase) => do
      let rest ← c.ahead source
      return if rest.head? = some d then (c.take d).enter phase
        else c.enter (.closing (.mark m) none)
  | .comment => c.takeIf source (· != '\n') fun _ => return c.enter .between
  | .string => c.takeIf source (· != '"') fun rest =>
      if rest.head? = some '"' then (c.take '"').closeString source
      else return c.fail report (.unterminatedString c.line)
  | .whole => c.takeIf source Char.isDigit fun rest =>
      if rest.head? = some '.' ∧ rest[1]?.any Char.isDigit then
        return (c.take '.').enter .fraction
      else c.closeNumber source
  | .fraction => c.takeIf source Char.isDigit fun _ => c.closeNumber source
  | .word => c.takeIf source isWordPart fun _ => c.closeWord source
  | .closing kind literal => c.push source kind literal
  | .ended => return c

/-- The cursors that a scan of a source comes through. -/
inductive Reached (report : σ → Fault → σ) (sink : σ) (source : String) : Cursor σ → Prop where
  | initial : Reached report sink source (initial sink)
  | advance {c next : Cursor σ} : Reached report sink source c →
      c.advance report source = .ok next → Reached report sink source next

end Cursor

end LoxLexis
