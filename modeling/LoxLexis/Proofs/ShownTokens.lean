import LoxLexis.Proofs.PrintedTokens
import LoxLexis.Proofs.WrittenNumbers
import LoxLexis.Token.Layout
import Mathlib

/-! What a token is shown as, in each layout, tells the token, whatever is shown behind it. -/
namespace LoxLexis
open Alphabet

namespace Kind

private theorem label_append_inj {label : Kind → String}
    (hparts : ∀ k ∈ Kind.all, (label k).toList.all isWordPart = true)
    (hnodup : (Kind.all.map label).Nodup) {a b : Kind} {c : Char} {text later : List Char}
    (hc : isWordPart c = false)
    (h : (label a).toList ++ c :: text = (label b).toList ++ c :: later) :
    a = b ∧ text = later := by
  have hpart (k : Kind) := List.all_eq_true.mp (hparts k k.mem_all)
  obtain ⟨hlabel, hlater⟩ := append_cons_inj (hpart a) (hpart b) hc h
  exact ⟨List.inj_on_of_nodup_map hnodup a.mem_all b.mem_all (String.toList_inj.mp hlabel), hlater⟩

private theorem name_append_inj {a b : Kind} {c : Char} {text later : List Char}
    (hc : isWordPart c = false)
    (h : a.name.toList ++ c :: text = b.name.toList ++ c :: later) : a = b ∧ text = later :=
  label_append_inj (by decide +kernel) (by decide +kernel) hc h

private theorem title_append_inj {a b : Kind} {c : Char} {text later : List Char}
    (hc : isWordPart c = false)
    (h : a.title.toList ++ c :: text = b.title.toList ++ c :: later) : a = b ∧ text = later :=
  label_append_inj (by decide +kernel) (by decide +kernel) hc h

end Kind

namespace Denotes
variable {a b text later : List Char} {kind : Kind} {v w : Option Literal} {c : Char}

private theorem number_part (h : Denotes a .number v) :
    ∀ d ∈ a, (isWordPart d || d == '.') = true := by
  have hdigits {digits : List Char} (hd : Digits digits) (d : Char) (hm : d ∈ digits) :
      (isWordPart d || d == '.') = true := by
    rw [isWordPart_of_isDigit (hd.2 d hm), Bool.true_or]
  cases h with
  | integer hw => exact hdigits hw
  | decimal hw hf =>
    intro d hm
    rcases List.mem_append.mp hm with hm | hm
    · exact hdigits hw d hm
    · rcases List.mem_cons.mp hm with rfl | hm
      · rfl
      · exact hdigits hf d hm

private theorem append_cons_inj (ha : Denotes a kind v) (hb : Denotes b kind w)
    (hc : (isWordPart c || c == '.') = false) (h : a ++ c :: text = b ++ c :: later) :
    a = b ∧ text = later := by
  have hpart : isWordPart c = false := (Bool.or_eq_false_iff.mp hc).1
  cases kind with
  | endOfInput => exact absurd rfl ha.kind_ne_endOfInput
  | number => exact LoxLexis.append_cons_inj ha.number_part hb.number_part hc h
  | mark m =>
    cases ha
    cases hb
    exact ⟨rfl, (List.cons.inj (List.append_cancel_left h)).2⟩
  | keyword k =>
    cases ha
    cases hb
    exact ⟨rfl, (List.cons.inj (List.append_cancel_left h)).2⟩
  | identifier =>
    cases ha with
    | identifier ha =>
      cases hb with
      | identifier hb =>
        exact LoxLexis.append_cons_inj (fun d hd => isWordPart_iff.mpr (ha.part hd))
          (fun d hd => isWordPart_iff.mpr (hb.part hd)) hpart h
  | string =>
    cases ha with
    | @string body ha =>
      cases hb with
      | @string body' hb =>
        -- The second quote ends both, so nothing is asked of the character behind it.
        have hbodies : body ++ '"' :: c :: text = body' ++ '"' :: c :: later := by simpa using h
        obtain ⟨rfl, hlater⟩ := LoxLexis.append_cons_inj (p := (· != '"'))
          (fun d hd => Lexeme.bne_of_not_mem ha hd) (fun d hd => Lexeme.bne_of_not_mem hb hd) rfl
          hbodies
        exact ⟨rfl, (List.cons.inj hlater).2⟩

/-- A lexeme has one value. -/
theorem literal_eq (hv : Denotes a kind v) (hw : Denotes a kind w) : v = w := by
  obtain ⟨k, -, hs⟩ := hv.spells
  obtain ⟨d, rest, rfl⟩ := List.exists_cons_of_ne_nil hs.ne_nil
  have hvalue := Lexeme.kind?_literal?_of_denotes (l := ⟨k, d, rest⟩) hs hv
  exact hvalue.2.symm.trans (Lexeme.kind?_literal?_of_denotes (l := ⟨k, d, rest⟩) hs hw).2

end Denotes

theorem repr_append_inj {m n : Nat} {c : Char} {text later : List Char} (hc : c.isDigit = false)
    (h : m.repr.toList ++ c :: text = n.repr.toList ++ c :: later) : m = n ∧ text = later := by
  obtain ⟨hrepr, hlater⟩ := append_cons_inj (digits_repr m).2 (digits_repr n).2 hc h
  exact ⟨Nat.repr_injective (String.toList_inj.mp hrepr), hlater⟩

namespace Literal
variable {v w : Literal} {text later : List Char}

/-- The same value, where all NaNs are one. -/
def SameValue : Literal → Literal → Prop
  | number x, number y => x = y ∨ (x.isNaN = true ∧ y.isNaN = true)
  | string s, string t => s = t
  | _, _ => False

private theorem writeQuoted_append_inj
    (h : v.writeQuoted.toList ++ text = w.writeQuoted.toList ++ later) :
    SameValue v w ∧ text = later := by
  have hnumber : "Number(".toList = 'N' :: "umber(".toList := rfl
  have hstring : "String(".toList = 'S' :: "tring(".toList := rfl
  have hend : ")".toList = [')'] := rfl
  cases v <;> cases w <;>
    simp only [writeQuoted, String.toList_append, String.toList_ofList, List.append_assoc, hnumber,
      hstring, hend, List.cons_append, List.nil_append, List.cons.injEq] at h
  case number.string | string.number => exact absurd h.1 (by decide)
  case number.number =>
    obtain ⟨hwrite, hlater⟩ := append_cons_inj (fun _ => Binary64.write_part)
      (fun _ => Binary64.write_part) rfl (List.append_cancel_left h.2)
    exact ⟨Binary64.write_eq_iff.mp hwrite, hlater⟩
  case string.string =>
    obtain ⟨hquoted, hlater⟩ := Text.quoted_append_inj (List.append_cancel_left h.2)
    exact ⟨hquoted, (List.cons.inj hlater).2⟩

private theorem writeQuoted_congr (h : SameValue v w) : v.writeQuoted = w.writeQuoted := by
  cases v <;> cases w
  case number.number => rw [writeQuoted, writeQuoted, Binary64.write_eq_iff.mpr h]
  case string.string s t =>
    obtain rfl : s = t := h
    rfl
  case number.string | string.number => exact h.elim

def writeOptional : Option Literal → String
  | some value => "Some(" ++ value.writeQuoted ++ ")"
  | none => "None"

private theorem writeOptional_append_inj {v w : Option Literal}
    (h : (writeOptional v).toList ++ text = (writeOptional w).toList ++ later) :
    Option.Rel SameValue v w ∧ text = later := by
  have hsome : "Some(".toList = 'S' :: "ome(".toList := rfl
  have hnone : "None".toList = 'N' :: "one".toList := rfl
  have hend : ")".toList = [')'] := rfl
  cases v <;> cases w <;>
    simp only [writeOptional, String.toList_append, List.append_assoc, hsome, hnone, hend,
      List.cons_append, List.nil_append, List.cons.injEq] at h
  case none.none => exact ⟨.none, List.append_cancel_left h.2⟩
  case none.some | some.none => exact absurd h.1 (by decide)
  case some.some =>
    obtain ⟨hvalue, hlater⟩ := writeQuoted_append_inj (List.append_cancel_left h.2)
    exact ⟨.some hvalue, (List.cons.inj hlater).2⟩

theorem writeOptional_congr {v w : Option Literal} (h : Option.Rel SameValue v w) :
    writeOptional v = writeOptional w := by
  cases h with
  | none => rfl
  | some h => rw [writeOptional, writeOptional, writeQuoted_congr h]

end Literal

namespace Token
variable {t u : Token} {layout : Layout} {text later : List Char}

/-- The tokens that a scan is made of: those for a lexeme, and the one that marks the end. -/
def Occurs (t : Token) : Prop :=
  t.WellFormed ∨ (t.kind = .endOfInput ∧ t.lexeme = "" ∧ t.literal = none)

private theorem Occurs.both (ht : t.Occurs) (hu : u.Occurs) (hkind : t.kind = u.kind) :
    (Denotes t.lexeme.toList t.kind t.literal ∧ Denotes u.lexeme.toList t.kind u.literal) ∨
      (t.lexeme = "" ∧ u.lexeme = "" ∧ t.literal = u.literal) := by
  rcases ht with ht | ⟨hend, htext, hvalue⟩
  · rcases hu with hu | ⟨hend, -⟩
    · exact Or.inl ⟨ht, hkind ▸ hu⟩
    · exact absurd (hkind.trans hend) ht.kind_ne_endOfInput
  · rcases hu with hu | ⟨-, htext', hvalue'⟩
    · exact absurd (hkind.symm.trans hend) hu.kind_ne_endOfInput
    · exact Or.inr ⟨htext, htext', hvalue.trans hvalue'.symm⟩

/-- The kind and the lexeme of a token leave nothing open but its line. -/
theorem Occurs.content_eq (ht : t.Occurs) (hu : u.Occurs) (hkind : t.kind = u.kind)
    (hlexeme : t.lexeme = u.lexeme) : t.content = u.content := by
  have hvalue : t.literal = u.literal := by
    rcases ht.both hu hkind with ⟨ht, hu⟩ | ⟨-, -, hvalue⟩
    · rw [← hlexeme] at hu
      exact ht.literal_eq hu
    · exact hvalue
  rw [content, content, hkind, hlexeme, hvalue]

private theorem Occurs.shown_append_inj (ht : t.Occurs) (hu : u.Occurs) {c d : Char}
    {gap : List Char}
    (hc : isWordPart c = false) (hd : (isWordPart d || d == '.') = false)
    (h : t.kind.name.toList ++ c :: (gap ++ (t.lexeme.toList ++ d :: text)) =
      u.kind.name.toList ++ c :: (gap ++ (u.lexeme.toList ++ d :: later))) :
    t.content = u.content ∧ text = later := by
  obtain ⟨hkind, hrest⟩ := Kind.name_append_inj hc h
  have hlexemes := List.append_cancel_left hrest
  rcases ht.both hu hkind with ⟨hdt, hdu⟩ | ⟨htext, htext', -⟩
  · obtain ⟨hlexeme, hlater⟩ := hdt.append_cons_inj hdu hd hlexemes
    exact ⟨ht.content_eq hu hkind (String.toList_inj.mp hlexeme), hlater⟩
  · rw [htext, htext'] at hlexemes
    exact ⟨ht.content_eq hu hkind (htext.trans htext'.symm), (List.cons.inj hlexemes).2⟩

private theorem Occurs.canonical_append_inj (ht : t.Occurs) (hu : u.Occurs)
    (h : t.canonical.toList ++ text = u.canonical.toList ++ later) :
    t.content = u.content ∧ text = later := by
  have hblank : " ".toList = [' '] := rfl
  simp only [canonical, String.toList_append, List.append_assoc, hblank, List.singleton_append] at h
  obtain ⟨hcontent, hvalue⟩ := @Occurs.shown_append_inj t u _ _ ht hu ' ' ' ' [] rfl rfl h
  have hliteral : t.literal = u.literal := congrArg (fun content => content.2.2) hcontent
  rw [hliteral] at hvalue
  exact ⟨hcontent, List.append_cancel_left hvalue⟩

private theorem Occurs.display_append_inj (ht : t.Occurs) (hu : u.Occurs)
    (h : t.display.toList ++ text = u.display.toList ++ later) :
    t.content = u.content ∧ t.line = u.line ∧ text = later := by
  have hlexeme : ", lexeme='".toList = ',' :: " lexeme='".toList := rfl
  have hvalue : "', literal=".toList = '\'' :: ", literal=".toList := rfl
  have hend : ")".toList = [')'] := rfl
  delta display at h
  simp only [String.toList_append, List.append_assoc, hlexeme, hvalue, hend,
    List.cons_append, List.nil_append] at h
  have hshown := List.append_cancel_left h
  obtain ⟨hcontent, hrest⟩ := ht.shown_append_inj hu rfl rfl hshown
  have hliteral : t.literal = u.literal := congrArg (fun content => content.2.2) hcontent
  rw [hliteral] at hrest
  have hlines := List.append_cancel_left (List.append_cancel_left (List.append_cancel_left hrest))
  exact ⟨hcontent, repr_append_inj rfl hlines⟩

theorem debug_eq (t : Token) :
    t.debug = "Token \x7b token_type: " ++ t.kind.title ++ ", lexeme: " ++ Text.quoted t.lexeme ++
      ", literal: " ++ Literal.writeOptional t.literal ++ ", line: " ++ t.line.repr ++ " \x7d" := by
  delta debug
  cases t.literal <;> rfl

/-- In full, and with the texts quoted, every token is shown in its own way, the NaNs apart. -/
theorem debug_append_inj (h : t.debug.toList ++ text = u.debug.toList ++ later) :
    t.kind = u.kind ∧ t.lexeme = u.lexeme ∧ Option.Rel Literal.SameValue t.literal u.literal ∧
      t.line = u.line ∧ text = later := by
  have hlexeme : ", lexeme: ".toList = ',' :: " lexeme: ".toList := rfl
  have hend : " \x7d".toList = [' ', '\x7d'] := rfl
  simp only [debug_eq, String.toList_append, List.append_assoc, hlexeme, hend,
    List.cons_append, List.nil_append] at h
  obtain ⟨hkind, hrest⟩ := Kind.title_append_inj rfl (List.append_cancel_left h)
  obtain ⟨hlexeme, hrest⟩ := Text.quoted_append_inj (List.append_cancel_left hrest)
  obtain ⟨hvalue, hrest⟩ := Literal.writeOptional_append_inj (List.append_cancel_left hrest)
  obtain ⟨hline, hlater⟩ := repr_append_inj rfl (List.append_cancel_left hrest)
  exact ⟨hkind, hlexeme, hvalue, hline, (List.cons.inj hlater).2⟩

private theorem Occurs.debug_append_inj (ht : t.Occurs) (hu : u.Occurs)
    (h : t.debug.toList ++ text = u.debug.toList ++ later) :
    t.content = u.content ∧ t.line = u.line ∧ text = later := by
  obtain ⟨hkind, hlexeme, -, hrest⟩ := Token.debug_append_inj h
  exact ⟨ht.content_eq hu hkind hlexeme, hrest⟩

/-- No token is shown as the beginning of what another is shown as. -/
theorem Occurs.render_append_inj (ht : t.Occurs) (hu : u.Occurs)
    (h : (t.render layout).toList ++ text = (u.render layout).toList ++ later) :
    t.content = u.content ∧ (layout = .canonical ∨ t.line = u.line) ∧ text = later := by
  cases layout with
  | canonical =>
    obtain ⟨hcontent, hlater⟩ := ht.canonical_append_inj hu h
    exact ⟨hcontent, Or.inl rfl, hlater⟩
  | display =>
    obtain ⟨hcontent, hline, hlater⟩ := ht.display_append_inj hu h
    exact ⟨hcontent, Or.inr hline, hlater⟩
  | debug =>
    obtain ⟨hcontent, hline, hlater⟩ := ht.debug_append_inj hu h
    exact ⟨hcontent, Or.inr hline, hlater⟩

private theorem canonical_congr (h : t.content = u.content) : t.canonical = u.canonical := by
  obtain ⟨hkind, hrest⟩ := Prod.mk.inj h
  obtain ⟨hlexeme, hliteral⟩ := Prod.mk.inj hrest
  rw [canonical, canonical, hkind, hlexeme, hliteral]

theorem render_congr (h : t.content = u.content) (hline : layout = .canonical ∨ t.line = u.line) :
    t.render layout = u.render layout := by
  rcases hline with rfl | hline
  · exact canonical_congr h
  · obtain ⟨hkind, hrest⟩ := Prod.mk.inj h
    obtain ⟨hlexeme, hliteral⟩ := Prod.mk.inj hrest
    cases t
    cases u
    cases hkind
    cases hlexeme
    cases hliteral
    cases hline
    rfl

theorem Occurs.render_eq_iff (ht : t.Occurs) (hu : u.Occurs) :
    t.render layout = u.render layout ↔
      t.content = u.content ∧ (layout = .canonical ∨ t.line = u.line) := by
  constructor
  · intro h
    have hlist := congrArg (fun shown => shown.toList ++ []) h
    obtain ⟨hcontent, hline, -⟩ := ht.render_append_inj hu hlist
    exact ⟨hcontent, hline⟩
  · rintro ⟨hcontent, hline⟩
    exact render_congr hcontent hline

end Token

theorem occurs_atEnd (source : String) : (Token.atEnd source).Occurs :=
  Or.inr ⟨rfl, rfl, rfl⟩

theorem occurs_of_mem_tokens {source : String} {t : Token} (h : t ∈ (scan source).tokens) :
    t.Occurs := by
  obtain ⟨tokens, htokens, hm⟩ := munch_scan source
  rw [htokens] at h
  rcases List.mem_append.mp h with h | h
  · exact Or.inl (hm.wellFormed t h)
  · obtain rfl := List.mem_singleton.mp h
    exact occurs_atEnd source

end LoxLexis
