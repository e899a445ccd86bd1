import LoxLexis.Proofs.LongestFit

/-! What may stand directly behind the text of a lexeme, form by form. -/
namespace LoxLexis
open Alphabet

private theorem takeWhile_eq_nil_iff_head {p : Char → Bool} {rest : List Char} :
    rest.takeWhile p = [] ↔ ∀ c ∈ rest.head?, p c = false := by
  cases rest with
  | nil => simp
  | cons c rest => cases h : p c <;> simp [h]

private theorem dropWhile_eq_self_of_head {p : Char → Bool} {rest : List Char}
    (h : ∀ c ∈ rest.head?, p c = false) : rest.dropWhile p = rest := by
  rw [← takeWhile_eq_nil_iff_head] at h
  simpa [h] using List.takeWhile_append_dropWhile (p := p) (l := rest)

private theorem takeWhile_append_eq_iff {p : Char → Bool} {w rest : List Char}
    (hw : ∀ c ∈ w, p c = true) :
    (w ++ rest).takeWhile p = w ↔ ∀ c ∈ rest.head?, p c = false := by
  rw [List.takeWhile_append_of_pos hw, List.append_right_eq_self, takeWhile_eq_nil_iff_head]

theorem not_mem_takeWhile_bne (mark : Char) (text : List Char) :
    mark ∉ text.takeWhile (· != mark) := by
  intro hm
  simpa using List.mem_takeWhile_imp hm

theorem head_dropWhile_bne (mark : Char) (text : List Char) :
    ∀ c ∈ (text.dropWhile (· != mark)).head?, c = mark := by
  intro c hc
  have hnot := List.head?_dropWhile_not (· != mark) text
  rw [Option.mem_def.mp hc] at hnot
  simpa using hnot

/-- A text in one of the forms is cut by itself where the first lexeme is no longer. -/
theorem Spells.isLongest_iff {k : Category} {c : Char} {w rest : List Char}
    (h : Spells k (c :: w)) :
    IsLongest k (c :: w) rest ↔ (Lexeme.first c (w ++ rest)).1.tail = w := by
  constructor
  · intro hl
    rw [Lexeme.first_of_isLongest hl]
  · intro htail
    refine ⟨h, fun {j other} hj hp => ?_⟩
    obtain ⟨v, rfl, hv⟩ := exists_cons_of_prefix hj.ne_nil hp
    have hle : v.length ≤ (Lexeme.first c (w ++ rest)).1.tail.length :=
      (Lexeme.first_longest hj hv).1
    rw [htail] at hle
    exact Nat.succ_le_succ hle

theorem Spells.isLongest_iff_first {k : Category} {c : Char} {w rest : List Char}
    (h : Spells k (c :: w)) :
    IsLongest k (c :: w) rest ↔ Lexeme.first c (w ++ rest) = (⟨k, c, w⟩, rest) :=
  ⟨Lexeme.first_of_isLongest, fun hf => h.isLongest_iff.mpr (by rw [hf])⟩

theorem isLongest_word_iff {piece rest : List Char} (h : Word piece) :
    IsLongest .word piece rest ↔ ∀ c ∈ rest.head?, isWordPart c = false := by
  have hs := Spells.word h
  obtain ⟨hc, hw⟩ := h
  rw [hs.isLongest_iff, Lexeme.first_of_isWordStart (isWordStart_iff.mpr hc)]
  exact takeWhile_append_eq_iff fun d hd => isWordPart_iff.mpr (hw d hd)

theorem isLongest_string {body : List Char} (h : '"' ∉ body) (rest : List Char) :
    IsLongest .string ('"' :: (body ++ ['"'])) rest := by
  rw [(Spells.string h).isLongest_iff, Lexeme.first_of_quote, List.append_assoc,
    List.singleton_append, Lexeme.firstString_of_closed h]

/-- A comment ends where its line does. -/
theorem isLongest_comment_iff {body rest : List Char} (h : '\n' ∉ body) :
    IsLongest .comment ('/' :: '/' :: body) rest ↔ ∀ c ∈ rest.head?, c = '\n' := by
  have hslash : Mark.ofChar? '/' = some .slash := rfl
  have hbody : ∀ c ∈ body, (c != '\n') = true := fun c hc => Lexeme.bne_of_not_mem h hc
  rw [(Spells.comment h).isLongest_iff, Lexeme.first_of_ofChar? hslash]
  simp [Lexeme.firstMark, takeWhile_append_eq_iff hbody]

/-- A comment takes in the text up to the next newline. -/
theorem Spells.isLongest_comment {piece : List Char} (h : Spells .comment piece)
    (more : List Char) :
    IsLongest .comment (piece ++ more.takeWhile (· != '\n')) (more.dropWhile (· != '\n')) := by
  cases h with
  | @comment body hbody =>
    have hlonger : '\n' ∉ body ++ more.takeWhile (· != '\n') := by
      rw [List.mem_append, not_or]
      exact ⟨hbody, not_mem_takeWhile_bne '\n' more⟩
    exact (isLongest_comment_iff hlonger).mpr (head_dropWhile_bne '\n' more)

theorem isLongest_blank {c : Char} (h : isBlank c = true) (rest : List Char) :
    IsLongest .blank [c] rest := by
  rw [(Spells.blank (isBlank_iff.mp h)).isLongest_iff, Lexeme.first_of_isBlank h]

private theorem splitFraction_eq_nil_iff {text : List Char} :
    (Lexeme.splitFraction text).1 = [] ↔
      ∀ d more, text = '.' :: d :: more → d.isDigit = false := by
  fun_cases Lexeme.splitFraction text with
  | case1 d rest hd => simp [hd]
  | case2 d rest hd => simpa using hd
  | case3 text hne =>
    exact iff_of_true rfl fun d more htext => (hne d more htext).elim

/-- Digits are cut by themselves where neither a digit nor a fraction follows. -/
theorem isLongest_integer_iff {whole rest : List Char} (h : Digits whole) :
    IsLongest .number whole rest ↔ (∀ c ∈ rest.head?, c.isDigit = false) ∧
      ∀ d more, rest = '.' :: d :: more → d.isDigit = false := by
  have hs := Spells.integer h
  obtain ⟨hne, hall⟩ := h
  obtain ⟨c, w, rfl⟩ := List.exists_cons_of_ne_nil hne
  have hw : ∀ d ∈ w, d.isDigit = true := fun d hd => hall d (List.mem_cons_of_mem _ hd)
  rw [hs.isLongest_iff, Lexeme.first_of_isDigit (hall c List.mem_cons_self)]
  simp only [Lexeme.firstNumber]
  rw [List.takeWhile_append_of_pos hw, List.dropWhile_append_of_pos hw, List.append_assoc,
    List.append_right_eq_self, List.append_eq_nil_iff, takeWhile_eq_nil_iff_head]
  refine and_congr_right fun hhead => ?_
  rw [dropWhile_eq_self_of_head hhead, splitFraction_eq_nil_iff]

theorem isLongest_decimal_iff {whole fraction rest : List Char} (hw : Digits whole)
    (hf : Digits fraction) :
    IsLongest .number (whole ++ '.' :: fraction) rest ↔ ∀ c ∈ rest.head?, c.isDigit = false := by
  have hs := Spells.decimal hw hf
  obtain ⟨c, whole, rfl⟩ := List.exists_cons_of_ne_nil hw.1
  obtain ⟨d, fraction, rfl⟩ := List.exists_cons_of_ne_nil hf.1
  have hwhole : ∀ d ∈ whole, d.isDigit = true := fun d hd => hw.2 d (List.mem_cons_of_mem _ hd)
  have hfraction : ∀ e ∈ fraction, e.isDigit = true := fun e he =>
    hf.2 e (List.mem_cons_of_mem _ he)
  have hd : d.isDigit = true := hf.2 d List.mem_cons_self
  have hpoint : Char.isDigit '.' = false := by decide
  rw [List.cons_append] at hs ⊢
  rw [hs.isLongest_iff, Lexeme.first_of_isDigit (hw.2 c List.mem_cons_self),
    ← takeWhile_append_eq_iff hfraction]
  simp [Lexeme.firstNumber, List.takeWhile_append_of_pos hwhole,
    List.dropWhile_append_of_pos hwhole, hpoint, Lexeme.splitFraction, hd]

/-- A mark is cut by itself unless it is a slash before a slash or an equals sign makes it
another mark. -/
theorem isLongest_mark_iff (m : Mark) {rest : List Char} :
    IsLongest (.mark m) m.spelling rest ↔
      (m = .slash → ∀ c ∈ rest.head?, c ≠ '/') ∧
        (m.withEqual?.isSome → ∀ c ∈ rest.head?, c ≠ '=') := by
  have hs := Spells.mark m
  rcases Mark.spelling_cases m with ⟨c, hc, hm⟩ | ⟨c, n, hc, hn, hm⟩
  · rw [hm] at hs ⊢
    rw [hs.isLongest_iff, Lexeme.first_of_ofChar? hc, List.nil_append]
    fun_cases Lexeme.firstMark m c rest with
    | case1 => simp
    | case2 next rest h => simp [h]
    | case3 rest wider hw => simp [hw]
    | case4 rest hw => simp [hw]
    | case5 next rest hslash hequal => simpa [hequal] using hslash
  · have hend : (m = .slash → ∀ c ∈ rest.head?, c ≠ '/') ∧
        (m.withEqual?.isSome → ∀ c ∈ rest.head?, c ≠ '=') := by
      cases n <;> cases hn <;> simp [Mark.withEqual?]
    rw [hm] at hs ⊢
    rw [hs.isLongest_iff, Lexeme.first_of_ofChar? hc]
    exact iff_of_true (by simp [Lexeme.firstMark, hn]) hend

/-! What has no say in where a lexeme ends. -/

private theorem isWordPart_eq_false_of_isBlank {c : Char} (h : isBlank c = true) :
    isWordPart c = false := by
  rcases isBlank_iff.mp h with rfl | rfl | rfl | rfl <;> rfl

theorem isDigit_eq_false_of_isBlank {c : Char} (h : isBlank c = true) : c.isDigit = false := by
  rcases isBlank_iff.mp h with rfl | rfl | rfl | rfl <;> rfl

theorem Digits.point_not_mem {text : List Char} (h : Digits text) : '.' ∉ text := by
  intro hm
  exact absurd (h.2 _ hm) (by decide)

/-- A lexeme is cut as it is if no other character comes to stand behind it, blanks apart, and a
whole number is given no fraction. Behind a comment there is to be a newline or nothing. -/
theorem IsLongest.of_ends {k : Category} {piece rest other : List Char}
    (h : IsLongest k piece rest) (hhead : ∀ c ∈ other.head?, isBlank c = true ∨ c ∈ rest.head?)
    (hcomment : k = .comment → ∀ c ∈ other.head?, c = '\n')
    (hpoint : k = .number → '.' ∉ piece → ∀ d more, other = '.' :: d :: more →
      d.isDigit = true → ∃ later, rest = '.' :: d :: later) : IsLongest k piece other := by
  have hother {p : Char → Prop} (hblank : ∀ {c}, isBlank c = true → p c)
      (hrest : ∀ c ∈ rest.head?, p c) : ∀ c ∈ other.head?, p c :=
    fun c hc => (hhead c hc).elim hblank (hrest c)
  have hs := h.spells
  cases hs with
  | mark m =>
    rw [isLongest_mark_iff] at h ⊢
    exact ⟨fun hm => hother (by rintro _ hb rfl; cases hb) (h.1 hm),
      fun hm => hother (by rintro _ hb rfl; cases hb) (h.2 hm)⟩
  | blank hb => exact isLongest_blank (isBlank_iff.mpr hb) other
  | comment hbody => exact (isLongest_comment_iff hbody).mpr (hcomment rfl)
  | string hbody => exact isLongest_string hbody other
  | integer hw =>
    rw [isLongest_integer_iff hw] at h ⊢
    refine ⟨hother isDigit_eq_false_of_isBlank h.1, fun d more hd => ?_⟩
    rw [← Bool.not_eq_true]
    intro hdigit
    obtain ⟨later, hlater⟩ := hpoint rfl hw.point_not_mem d more hd hdigit
    rw [h.2 d later hlater] at hdigit
    cases hdigit
  | decimal hw hf =>
    rw [isLongest_decimal_iff hw hf] at h ⊢
    exact hother isDigit_eq_false_of_isBlank h
  | word hw =>
    rw [isLongest_word_iff hw] at h ⊢
    exact hother isWordPart_eq_false_of_isBlank h

/-- Ways to change a text that a lexeme before it does not notice: the first character stays or
gives way to a blank, and what stands behind a point is changed by itself. -/
structure Unnoticed (change : List Char → List Char) : Prop where
  head : ∀ text, ∀ c ∈ (change text).head?, isBlank c = true ∨ c ∈ text.head?
  point : ∀ rest, change ('.' :: rest) = '.' :: change rest

theorem Unnoticed.isLongest {change : List Char → List Char} (hchange : Unnoticed change)
    {k : Category} {piece rest : List Char} (h : IsLongest k piece rest) (hk : k ≠ .comment) :
    IsLongest k piece (change rest) := by
  refine h.of_ends (hchange.head rest) (fun hc => absurd hc hk) fun _ _ d more hd hdigit => ?_
  have hhead := hchange.head rest '.' (by rw [hd]; rfl)
  obtain ⟨later, rfl⟩ := List.head?_eq_some_iff.mp (hhead.resolve_left (by decide))
  have hlater : change later = d :: more := (List.cons.inj ((hchange.point later).symm.trans hd)).2
  rcases hchange.head later d (by rw [hlater]; rfl) with hblank | hnext
  · rw [isDigit_eq_false_of_isBlank hblank] at hdigit
    cases hdigit
  · obtain ⟨later, rfl⟩ := List.head?_eq_some_iff.mp hnext
    exact ⟨later, rfl⟩

/-- A blank, or a character that is no digit and no point and stays where it is, hides what stands
behind it. A comment that the text ends with needs a newline. -/
theorem IsLongest.of_divider {k : Category} {piece front rest more : List Char} {b : Char}
    (h : IsLongest k piece (front ++ rest)) (hb : isBlank b = true ∨ b ∈ rest.head?)
    (hdigit : b.isDigit = false) (hpoint : b ≠ '.')
    (hend : k = .comment → front = [] → b = '\n') : IsLongest k piece (front ++ b :: more) := by
  refine h.of_ends (fun c hc => ?_) (fun hk c hc => ?_) fun _ _ d later hd hdd => ?_
  · cases front with
    | nil => exact Option.some.inj hc ▸ hb
    | cons => exact Or.inr hc
  · subst hk
    cases front with
    | nil => exact Option.some.inj hc ▸ hend rfl rfl
    | cons => exact h.comment_end c hc
  · match front with
    | [] => exact absurd (List.cons.inj hd).1 hpoint
    | [_] =>
      obtain ⟨rfl, rfl, -⟩ : _ = '.' ∧ b = d ∧ more = later := by simpa using hd
      rw [hdd] at hdigit
      cases hdigit
    | _ :: _ :: _ =>
      obtain ⟨rfl, rfl, -⟩ : _ = '.' ∧ _ = d ∧ _ := by simpa using hd
      exact ⟨_, rfl⟩

end LoxLexis
