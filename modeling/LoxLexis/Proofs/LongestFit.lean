import LoxLexis.Lexeme.LongestMatch
import LoxLexis.Proofs.LexemeForms
import Mathlib.Data.List.TakeWhile
import Mathlib.Tactic.ByContra

/-! The first lexeme of a text is its longest beginning in one of the forms. -/
namespace LoxLexis
open Alphabet

/-- A text that fits one of the forms, and no longer beginning of the whole does. -/
structure IsLongest (k : Category) (piece rest : List Char) : Prop where
  spells : Spells k piece
  longest : ∀ {j : Category} {other : List Char}, Spells j other → other <+: piece ++ rest →
    other.length ≤ piece.length

/-- No beginning of the text fits a form. -/
def Unmatched (text : List Char) : Prop :=
  ∀ (k : Category) (piece : List Char), Spells k piece → ¬ piece <+: text

/-- A comment is cut up to the end of its line. -/
theorem IsLongest.comment_end {piece rest : List Char} (h : IsLongest .comment piece rest) :
    ∀ c ∈ rest.head?, c = '\n' := by
  intro c hc
  obtain ⟨rest, rfl⟩ := List.head?_eq_some_iff.mp hc
  by_contra hne
  obtain ⟨hs, hlongest⟩ := h
  cases hs with
  | @comment body hb =>
    have hlonger : Spells .comment ('/' :: '/' :: (body ++ [c])) :=
      .comment (by simp [hb, Ne.symm hne])
    have hle := hlongest hlonger ⟨rest, by simp⟩
    simp only [List.length_cons, List.length_append, List.length_nil] at hle
    omega

/-- A slash that is cut by itself has no second one after it. -/
theorem IsLongest.slash_end {rest : List Char} (h : IsLongest (.mark .slash) ['/'] rest) :
    rest.head? ≠ some '/' := by
  intro hc
  obtain ⟨rest, rfl⟩ := List.head?_eq_some_iff.mp hc
  have hlonger : Spells .comment ['/', '/'] := .comment List.not_mem_nil
  exact absurd (h.longest hlonger ⟨rest, rfl⟩) (by decide)

/-- A quote that begins no string is the last one. -/
theorem Unmatched.quote_not_mem {rest : List Char} (h : Unmatched ('"' :: rest)) : '"' ∉ rest := by
  intro hq
  obtain ⟨body, more, rfl, hb⟩ := List.eq_append_cons_of_mem hq
  exact h _ _ (.string hb) ⟨more, by simp⟩

def Category.isFault : Category → Bool
  | .openString | .stray => true
  | _ => false

/-- A mark is one character, or one to which an equals sign is added. -/
theorem Mark.spelling_cases (m : Mark) :
    (∃ c, Mark.ofChar? c = some m ∧ m.spelling = [c]) ∨
      ∃ c n, Mark.ofChar? c = some n ∧ n.withEqual? = some m ∧ m.spelling = [c, '='] := by
  cases m with
  | bangEqual => exact Or.inr ⟨'!', .bang, rfl, rfl, rfl⟩
  | equalEqual => exact Or.inr ⟨'=', .equal, rfl, rfl, rfl⟩
  | greaterEqual => exact Or.inr ⟨'>', .greater, rfl, rfl, rfl⟩
  | lessEqual => exact Or.inr ⟨'<', .less, rfl, rfl, rfl⟩
  | _ => exact Or.inl ⟨_, by rfl, rfl⟩

namespace Alphabet
variable {c : Char}

theorem isBlank_iff : isBlank c = true ↔ c = ' ' ∨ c = '\t' ∨ c = '\r' ∨ c = '\n' := by
  simp [isBlank, or_assoc]

theorem isWordStart_iff : isWordStart c = true ↔ c.isAlpha ∨ c = '_' := by
  simp [isWordStart]

theorem isWordPart_iff : isWordPart c = true ↔ c.isAlphanum ∨ c = '_' := by
  simp [isWordPart]

theorem isWordPart_eq (c : Char) : isWordPart c = (isWordStart c || c.isDigit) := by
  simp [isWordPart, isWordStart, Char.isAlphanum, Bool.or_right_comm]

private theorem isBlank_eq_false_of_isWordPart (h : isWordPart c = true) : isBlank c = false := by
  rw [← Bool.not_eq_true, isBlank_iff]
  rintro (rfl | rfl | rfl | rfl) <;> exact absurd h (by decide)

private theorem ne_quote_of_isWordPart (h : isWordPart c = true) : (c == '"') = false := by
  rw [beq_eq_false_iff_ne]
  rintro rfl
  exact absurd h (by decide)

theorem isDigit_eq_false_of_isWordStart (h : isWordStart c = true) : c.isDigit = false := by
  rw [← Bool.not_eq_true]
  intro hd
  have hlow : c.toNat ≤ 57 := by
    simp only [Char.isDigit, Bool.and_eq_true, decide_eq_true_eq, ge_iff_le] at hd
    exact hd.2
  rcases isWordStart_iff.mp h with ha | rfl
  · rcases Bool.or_eq_true_iff.mp ha with hupper | hlower
    · have : 65 ≤ c.toNat := (of_decide_eq_true hupper).1
      omega
    · have : 97 ≤ c.toNat := of_decide_eq_true (Bool.and_eq_true_iff.mp hlower).1
      omega
  · exact absurd hd (by decide)

theorem ofChar?_class {m : Mark} (h : Mark.ofChar? c = some m) :
    isBlank c = false ∧ (c == '"') = false ∧ c.isDigit = false ∧ isWordStart c = false := by
  unfold Mark.ofChar? at h
  split at h <;> first | decide | cases h

end Alphabet

namespace Lexeme
variable {c : Char} {text : List Char}

theorem first_of_isBlank (h : isBlank c = true) : first c text = (⟨.blank, c, []⟩, text) := by
  simp [first, h]

theorem first_of_quote : first '"' text = firstString '"' text := by
  have hb : isBlank '"' = false := by decide
  simp [first, hb]

theorem first_of_isDigit (h : c.isDigit = true) : first c text = firstNumber c text := by
  have hp := isWordPart_of_isDigit h
  simp [first, isBlank_eq_false_of_isWordPart hp, ne_quote_of_isWordPart hp, h]

theorem first_of_isWordStart (h : isWordStart c = true) :
    first c text = (⟨.word, c, text.takeWhile isWordPart⟩, text.dropWhile isWordPart) := by
  have hp := isWordPart_of_isWordStart h
  simp [first, isBlank_eq_false_of_isWordPart hp, ne_quote_of_isWordPart hp,
    isDigit_eq_false_of_isWordStart h, h]

theorem first_of_ofChar? {m : Mark} (h : Mark.ofChar? c = some m) :
    first c text = firstMark m c text := by
  obtain ⟨hb, hq, hd, hw⟩ := ofChar?_class h
  simp only [first, hb, hq, hd, hw, h, Bool.false_eq_true, if_false]

/-! What each shape of lexeme is cut as. -/

private theorem length_le_takeWhile {p : Char → Bool} {body : List Char} (hp : body <+: text)
    (hall : ∀ d ∈ body, p d = true) : body.length ≤ (text.takeWhile p).length := by
  obtain ⟨rest, rfl⟩ := hp
  rw [List.takeWhile_append_of_pos hall, List.length_append]
  exact Nat.le_add_right _ _

private theorem splitFraction_fst (text : List Char) :
    (splitFraction text).1 = [] ∨
      ∃ fraction, Digits fraction ∧ (splitFraction text).1 = '.' :: fraction := by
  fun_cases splitFraction text with
  | case1 digit rest hd =>
    refine Or.inr ⟨digit :: rest.takeWhile Char.isDigit, ⟨List.cons_ne_nil _ _, ?_⟩, rfl⟩
    intro d hm
    rcases List.mem_cons.mp hm with rfl | hm
    · exact hd
    · exact List.mem_takeWhile_imp hm
  | case2 | case3 => exact Or.inl rfl

private theorem splitFraction_of_digits {fraction : List Char} (h : Digits fraction)
    (more : List Char) :
    fraction.length < (splitFraction ('.' :: (fraction ++ more))).1.length := by
  obtain ⟨hne, hall⟩ := h
  obtain ⟨d, rest, rfl⟩ := List.exists_cons_of_ne_nil hne
  have hrest : rest.length ≤ ((rest ++ more).takeWhile Char.isDigit).length :=
    length_le_takeWhile (List.prefix_append _ _) fun x hx => hall x (List.mem_cons_of_mem _ hx)
  simp only [List.cons_append, splitFraction, hall d List.mem_cons_self, if_true,
    List.length_cons]
  omega

private theorem firstNumber_spells (h : c.isDigit = true) :
    Spells .number (firstNumber c text).1.chars := by
  have hwhole : Digits (c :: text.takeWhile Char.isDigit) := by
    refine ⟨List.cons_ne_nil _ _, ?_⟩
    intro d hm
    rcases List.mem_cons.mp hm with rfl | hm
    · exact h
    · exact List.mem_takeWhile_imp hm
  rcases splitFraction_fst (text.dropWhile Char.isDigit) with hf | ⟨fraction, hd, hf⟩
  · simpa [firstNumber, chars, hf] using Spells.integer hwhole
  · simpa [firstNumber, chars, hf] using Spells.decimal hwhole hd

theorem bne_of_not_mem {mark d : Char} {body : List Char} (h : mark ∉ body) (hd : d ∈ body) :
    (d != mark) = true := by
  rw [bne_iff_ne]
  rintro rfl
  exact h hd

/-- A string that is closed ends at the first quote after the one that opens it. -/
theorem firstString_of_closed {body more : List Char} (h : '"' ∉ body) :
    firstString c (body ++ '"' :: more) = (⟨.string, c, body ++ ['"']⟩, more) := by
  have hall : ∀ d ∈ body, (d != '"') = true := fun d hd => bne_of_not_mem h hd
  simp [firstString, List.takeWhile_append_of_pos hall, List.dropWhile_append_of_pos hall]

theorem firstString_of_open (h : '"' ∉ text) :
    firstString c text = (⟨.openString, c, text⟩, []) := by
  have hnil : text.dropWhile (· != '"') = [] :=
    List.dropWhile_eq_nil_iff.mpr fun d hd => bne_of_not_mem h hd
  simp [firstString, hnil]

private theorem firstMark_category (m : Mark) (c : Char) (text : List Char) :
    (firstMark m c text).1.category.isFault = false ∧
      ((firstMark m c text).1.category = .mark m ∨ 0 < (firstMark m c text).1.tail.length) := by
  fun_cases firstMark m c text with
  | case1 | case4 | case5 => exact ⟨rfl, Or.inl rfl⟩
  | case2 | case3 => exact ⟨rfl, Or.inr (Nat.succ_pos _)⟩

private theorem firstMark_spells {m : Mark} (h : Mark.ofChar? c = some m) :
    Spells (firstMark m c text).1.category (firstMark m c text).1.chars := by
  have hs := Mark.spelling_of_ofChar? h
  have hm : Spells (.mark m) [c] := hs ▸ .mark m
  fun_cases firstMark m c text with
  | case1 | case4 | case5 => exact hm
  | case2 next rest hc =>
    obtain ⟨rfl, rfl⟩ := hc
    obtain rfl : '/' = c := (List.cons.inj hs).1
    refine .comment fun hn => ?_
    simpa using List.mem_takeWhile_imp hn
  | case3 rest wider hw _ =>
    have hs' := Mark.spelling_of_withEqual? hw
    rw [hs] at hs'
    have hwide := Spells.mark wider
    rwa [hs'] at hwide

/-- The first lexeme has the form of its category, or it is a quote that is never closed, or it
is a character that is no quote and that no lexeme begins with. -/
theorem first_cases (c : Char) (text : List Char) :
    Spells (first c text).1.category (first c text).1.chars ∨
      (c = '"' ∧ first c text = (⟨.openString, '"', text⟩, [])) ∨
      (c ≠ '"' ∧ first c text = (⟨.stray, c, []⟩, text)) := by
  by_cases hb : isBlank c = true
  · rw [first_of_isBlank hb]
    exact Or.inl (.blank (isBlank_iff.mp hb))
  by_cases hq : c = '"'
  · subst hq
    rw [first_of_quote]
    by_cases ht : '"' ∈ text
    · obtain ⟨body, more, rfl, hbody⟩ := List.eq_append_cons_of_mem ht
      rw [firstString_of_closed hbody]
      exact Or.inl (.string hbody)
    · exact Or.inr (Or.inl ⟨rfl, firstString_of_open ht⟩)
  by_cases hd : c.isDigit = true
  · rw [first_of_isDigit hd]
    exact Or.inl (firstNumber_spells hd)
  by_cases hw : isWordStart c = true
  · rw [first_of_isWordStart hw]
    refine Or.inl (.word (.mk (isWordStart_iff.mp hw) fun d hm => ?_))
    exact isWordPart_iff.mp (List.mem_takeWhile_imp hm)
  cases hm : Mark.ofChar? c with
  | some m =>
    rw [first_of_ofChar? hm]
    exact Or.inl (firstMark_spells hm)
  | none => exact Or.inr (Or.inr ⟨hq, by simp [first, hb, hq, hd, hw, hm]⟩)

private theorem firstNumber_longest {w : List Char} (hs : Spells .number (c :: w))
    (hp : w <+: text) : w.length ≤ (firstNumber c text).1.tail.length := by
  simp only [firstNumber]
  generalize hn : c :: w = number at hs
  cases hs with
  | integer hw =>
    subst hn
    have hall : ∀ d ∈ w, d.isDigit = true := fun d hm => hw.2 d (List.mem_cons_of_mem _ hm)
    have := length_le_takeWhile hp hall
    rw [List.length_append]
    omega
  | @decimal whole fraction hw hf =>
    obtain ⟨d, whole, rfl⟩ := List.exists_cons_of_ne_nil hw.1
    rw [List.cons_append, List.cons.injEq] at hn
    obtain ⟨rfl, rfl⟩ := hn
    obtain ⟨more, rfl⟩ := hp
    have hall : ∀ d ∈ whole, d.isDigit = true := fun d hm => hw.2 d (List.mem_cons_of_mem _ hm)
    have hpoint : Char.isDigit '.' = false := by decide
    have hfraction := splitFraction_of_digits hf more
    simp only [List.append_assoc, List.cons_append, List.takeWhile_append_of_pos hall,
      List.dropWhile_append_of_pos hall, List.takeWhile_cons, List.dropWhile_cons, hpoint,
      Bool.false_eq_true, if_false, List.append_nil, List.length_append, List.length_cons]
    omega

/-- Whatever begins a text in one of the forms, the first lexeme is no fault and no shorter, and
it is of another category only if it is longer. -/
theorem first_longest {k : Category} {w : List Char} (hs : Spells k (c :: w)) (hp : w <+: text) :
    w.length ≤ (first c text).1.tail.length ∧ (first c text).1.category.isFault = false ∧
      ((first c text).1.category = k ∨ w.length < (first c text).1.tail.length) := by
  generalize hn : c :: w = piece at hs
  cases hs with
  | blank hb =>
    obtain ⟨rfl, rfl⟩ := List.cons.inj hn
    rw [first_of_isBlank (isBlank_iff.mpr hb)]
    exact ⟨Nat.le_refl _, rfl, Or.inl rfl⟩
  | @string body hb =>
    obtain ⟨rfl, rfl⟩ := List.cons.inj hn
    obtain ⟨more, rfl⟩ := hp
    rw [first_of_quote, List.append_assoc, List.singleton_append, firstString_of_closed hb]
    exact ⟨Nat.le_refl _, rfl, Or.inl rfl⟩
  | integer hw =>
    subst hn
    have hd := hw.2 c List.mem_cons_self
    rw [first_of_isDigit hd]
    exact ⟨firstNumber_longest (.integer hw) hp, rfl, Or.inl rfl⟩
  | @decimal whole fraction hw hf =>
    obtain ⟨d, whole, rfl⟩ := List.exists_cons_of_ne_nil hw.1
    have hd := hw.2 d List.mem_cons_self
    obtain rfl : c = d := (List.cons.inj hn).1
    rw [first_of_isDigit hd]
    exact ⟨firstNumber_longest (hn ▸ .decimal hw hf) hp, rfl, Or.inl rfl⟩
  | word hw =>
    subst hn
    obtain ⟨hc, hrest⟩ := hw
    rw [first_of_isWordStart (isWordStart_iff.mpr hc)]
    refine ⟨length_le_takeWhile hp fun d hd => isWordPart_iff.mpr (hrest d hd), rfl, Or.inl rfl⟩
  | @comment body hb =>
    obtain ⟨rfl, rfl⟩ := List.cons.inj hn
    obtain ⟨more, rfl⟩ := hp
    have hbody : body.length ≤ ((body ++ more).takeWhile (· != '\n')).length :=
      length_le_takeWhile (List.prefix_append _ _) fun d hd => bne_of_not_mem hb hd
    have hm : Mark.ofChar? '/' = some .slash := rfl
    rw [first_of_ofChar? hm]
    exact ⟨by simpa [firstMark] using hbody, rfl, Or.inl rfl⟩
  | mark m =>
    rcases Mark.spelling_cases m with ⟨d, hd, hs⟩ | ⟨d, n, hd, hn', hs⟩
    · rw [hs] at hn
      obtain ⟨rfl, rfl⟩ := List.cons.inj hn
      rw [first_of_ofChar? hd]
      exact ⟨Nat.zero_le _, firstMark_category m c text⟩
    · rw [hs] at hn
      obtain ⟨rfl, rfl⟩ := List.cons.inj hn
      obtain ⟨more, rfl⟩ := hp
      have hf : firstMark n c ('=' :: more) = (⟨.mark m, c, ['=']⟩, more) := by
        simp [firstMark, hn']
      rw [first_of_ofChar? hd, List.singleton_append, hf]
      exact ⟨Nat.le_refl _, rfl, Or.inl rfl⟩

end Lexeme

theorem exists_cons_of_prefix {c : Char} {piece text : List Char} (hne : piece ≠ [])
    (hp : piece <+: c :: text) : ∃ w, piece = c :: w ∧ w <+: text := by
  obtain ⟨d, w, rfl⟩ := List.exists_cons_of_ne_nil hne
  obtain ⟨rfl, hw⟩ := List.cons_prefix_cons.mp hp
  exact ⟨w, rfl, hw⟩

namespace Lexeme
variable {c : Char} {text rest : List Char}

private theorem isLongest_first (h : Spells (first c text).1.category (first c text).1.chars) :
    IsLongest (first c text).1.category (first c text).1.chars (first c text).2 := by
  refine ⟨h, fun {j other} hs hp => ?_⟩
  rw [first_append] at hp
  obtain ⟨w, rfl, hw⟩ := exists_cons_of_prefix hs.ne_nil hp
  exact Nat.succ_le_succ (first_longest hs hw).1

theorem unmatched_of_isFault (h : (first c text).1.category.isFault = true) :
    Unmatched (c :: text) := by
  intro k piece hs hp
  obtain ⟨w, rfl, hw⟩ := exists_cons_of_prefix hs.ne_nil hp
  rw [(first_longest hs hw).2.1] at h
  cases h

/-- One cut: the longest beginning in one of the forms; where none fits, all that follows an open
quote, and otherwise a single character. -/
theorem first_cut (c : Char) (text : List Char) :
    IsLongest (first c text).1.category (first c text).1.chars (first c text).2 ∨
      (Unmatched (c :: text) ∧ c = '"' ∧ first c text = (⟨.openString, '"', text⟩, [])) ∨
      (Unmatched (c :: text) ∧ c ≠ '"' ∧ first c text = (⟨.stray, c, []⟩, text)) := by
  rcases first_cases c text with hs | ⟨hc, hf⟩ | ⟨hc, hf⟩
  · exact Or.inl (isLongest_first hs)
  · exact Or.inr (Or.inl ⟨unmatched_of_isFault (by rw [hf]; rfl), hc, hf⟩)
  · exact Or.inr (Or.inr ⟨unmatched_of_isFault (by rw [hf]; rfl), hc, hf⟩)

theorem first_of_isLongest {k : Category} {w : List Char} (h : IsLongest k (c :: w) rest) :
    first c (w ++ rest) = (⟨k, c, w⟩, rest) := by
  obtain ⟨hle, hfault, hk⟩ := first_longest h.spells (List.prefix_append w rest)
  have happ : (first c (w ++ rest)).1.chars ++ (first c (w ++ rest)).2 = (c :: w) ++ rest :=
    first_append c (w ++ rest)
  rcases first_cut c (w ++ rest) with hl | ⟨-, -, hf⟩ | ⟨-, -, hf⟩
  · have hge := h.longest hl.spells ⟨_, happ⟩
    obtain ⟨hchars, hrest⟩ := List.append_inj happ (Nat.le_antisymm hge (Nat.succ_le_succ hle))
    obtain ⟨hc, hw⟩ := List.cons.inj hchars
    have hk := hk.resolve_right (by rw [hw]; exact Nat.lt_irrefl _)
    exact Prod.ext (Lexeme.ext hk hc hw) hrest
  · rw [hf] at hfault
    cases hfault
  · rw [hf] at hfault
    cases hfault

theorem first_of_unmatched (h : Unmatched (c :: text)) :
    first c text =
      if c = '"' then (⟨.openString, '"', text⟩, []) else (⟨.stray, c, []⟩, text) := by
  rcases first_cut c text with hl | ⟨-, hc, hf⟩ | ⟨-, hc, hf⟩
  · exact absurd ⟨_, first_append c text⟩ (h _ _ hl.spells)
  · rw [if_pos hc, hf]
  · rw [if_neg hc, hf]

end Lexeme

theorem Spells.isLongest_nil {k : Category} {piece : List Char} (h : Spells k piece) :
    IsLongest k piece [] :=
  ⟨h, fun _ hp => by simpa using hp.length_le⟩

/-- No text is in the forms of two categories. -/
theorem Spells.unique {j k : Category} {piece : List Char} (hj : Spells j piece)
    (hk : Spells k piece) : j = k := by
  obtain ⟨c, w, rfl⟩ := List.exists_cons_of_ne_nil hj.ne_nil
  have h := (Lexeme.first_of_isLongest hj.isLongest_nil).symm.trans
    (Lexeme.first_of_isLongest hk.isLongest_nil)
  exact congrArg (fun cut => cut.1.category) h

end LoxLexis
