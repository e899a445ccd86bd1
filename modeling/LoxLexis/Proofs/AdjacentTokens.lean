import LoxLexis.Proofs.LexemeEnds
import LoxLexis.Proofs.PrintedTokens
import Mathlib.Data.List.Flatten

/-! Which tokens are scanned as they were when they are written with nothing between them. -/
namespace LoxLexis
open Alphabet

def Kind.IsWord : Kind → Prop
  | .identifier | .keyword _ => True
  | _ => False

/-- A token that does not keep its lexeme with others written right behind it. -/
inductive Clashes : Token → List Token → Prop where
  | words {t u : Token} {rest : List Token} : t.kind.IsWord → u.kind.IsWord ∨ u.kind = .number →
      Clashes t (u :: rest)
  | numbers {t u : Token} {rest : List Token} : t.kind = .number → u.kind = .number →
      Clashes t (u :: rest)
  | equals {t u : Token} {rest : List Token} :
      t.kind ∈ [.mark .bang, .mark .equal, .mark .less, .mark .greater] →
      u.kind ∈ [.mark .equal, .mark .equalEqual] → Clashes t (u :: rest)
  | slashes {t u : Token} {rest : List Token} : t.kind = .mark .slash → u.kind = .mark .slash →
      Clashes t (u :: rest)
  | point {t u v : Token} {rest : List Token} : t.kind = .number → '.' ∉ t.lexeme.toList →
      u.kind = .mark .dot → v.kind = .number → Clashes t (u :: v :: rest)

/-! Each kind has its own ways to clash. -/

section Clashes
variable {t : Token} {rest : List Token}

private theorem clashes_word_iff (h : t.kind.IsWord) :
    Clashes t rest ↔ ∃ u ∈ rest.head?, u.kind.IsWord ∨ u.kind = .number := by
  constructor
  · intro hc
    cases hc with
    | words _ hu => exact ⟨_, rfl, hu⟩
    | equals ht =>
      simp only [List.mem_cons, List.not_mem_nil, or_false] at ht
      rcases ht with ht | ht | ht | ht <;> simp [ht, Kind.IsWord] at h
    | numbers ht | slashes ht | point ht => simp [ht, Kind.IsWord] at h
  · rintro ⟨u, hu, hkind⟩
    obtain ⟨more, rfl⟩ := List.head?_eq_some_iff.mp hu
    exact .words h hkind

private theorem not_clashes_string (h : t.kind = .string) : ¬ Clashes t rest := by
  rintro (⟨ht, -⟩ | ⟨ht, -⟩ | ⟨ht, -⟩ | ⟨ht, -⟩ | ⟨ht, -⟩) <;> simp [h, Kind.IsWord] at ht

private theorem clashes_number_iff (h : t.kind = .number) :
    Clashes t rest ↔ (∃ u ∈ rest.head?, u.kind = .number) ∨ ('.' ∉ t.lexeme.toList ∧
      ∃ u v more, rest = u :: v :: more ∧ u.kind = .mark .dot ∧ v.kind = .number) := by
  constructor
  · intro hc
    cases hc with
    | numbers _ hu => exact Or.inl ⟨_, rfl, hu⟩
    | point _ hp hu hv => exact Or.inr ⟨hp, _, _, _, rfl, hu, hv⟩
    | words ht | equals ht | slashes ht => simp [h, Kind.IsWord] at ht
  · rintro (⟨u, hu, hkind⟩ | ⟨hp, u, v, more, rfl, hu, hv⟩)
    · obtain ⟨more, rfl⟩ := List.head?_eq_some_iff.mp hu
      exact .numbers h hkind
    · exact .point h hp hu hv

private theorem clashes_mark_iff {m : Mark} (h : t.kind = .mark m) :
    Clashes t rest ↔ (m = .slash ∧ ∃ u ∈ rest.head?, u.kind = .mark .slash) ∨
      (m.withEqual?.isSome ∧ ∃ u ∈ rest.head?, u.kind ∈ [.mark .equal, .mark .equalEqual]) := by
  constructor
  · intro hc
    cases hc with
    | words ht | numbers ht | point ht => simp [h, Kind.IsWord] at ht
    | equals ht hu =>
      refine Or.inr ⟨?_, _, rfl, hu⟩
      rw [h] at ht
      revert ht
      cases m <;> decide
    | slashes ht hu =>
      obtain rfl := Kind.mark.inj (h.symm.trans ht)
      exact Or.inl ⟨rfl, _, rfl, hu⟩
  · rintro (⟨rfl, u, hu, hkind⟩ | ⟨hm, u, hu, hkind⟩) <;>
      obtain ⟨more, rfl⟩ := List.head?_eq_some_iff.mp hu
    · exact .slashes h hkind
    · refine .equals ?_ hkind
      rw [h]
      revert hm
      cases m <;> decide

end Clashes

inductive Opens : Char → Kind → Prop where
  | mark {c : Char} {m : Mark} {w : List Char} : m.spelling = c :: w → Opens c (.mark m)
  | word {c : Char} {kind : Kind} : isWordStart c = true → kind.IsWord → Opens c kind
  | string : Opens '"' .string
  | number {c : Char} : c.isDigit = true → Opens c .number

private theorem Word.isWordStart_head {c : Char} {w : List Char} (h : Word (c :: w)) :
    isWordStart c = true := by
  obtain ⟨hc, -⟩ := h
  exact isWordStart_iff.mpr hc

private theorem Denotes.opens {c : Char} {w : List Char} {kind : Kind} {literal : Option Literal}
    (h : Denotes (c :: w) kind literal) : Opens c kind := by
  generalize hn : c :: w = piece at h
  cases h with
  | mark m => exact .mark hn.symm
  | keyword k =>
    have hw := k.word_spelling
    rw [← hn] at hw
    exact .word hw.isWordStart_head trivial
  | identifier hw =>
    subst hn
    exact .word hw.isWordStart_head trivial
  | string =>
    obtain rfl := (List.cons.inj hn).1
    exact .string
  | integer hw =>
    subst hn
    exact .number (hw.2 c List.mem_cons_self)
  | decimal hw =>
    obtain ⟨d, whole, rfl⟩ := List.exists_cons_of_ne_nil hw.1
    obtain rfl := (List.cons.inj hn).1
    exact .number (hw.2 c List.mem_cons_self)

private theorem Mark.exists_ofChar?_of_spelling {m : Mark} {c : Char} {w : List Char}
    (h : m.spelling = c :: w) : ∃ n, Mark.ofChar? c = some n := by
  rcases Mark.spelling_cases m with ⟨d, hd, hs⟩ | ⟨d, n, hd, -, hs⟩ <;> rw [h] at hs <;>
    obtain rfl := (List.cons.inj hs).1 <;> exact ⟨_, hd⟩

namespace Opens
variable {c : Char} {kind : Kind}

private theorem isDigit_iff (h : Opens c kind) : c.isDigit = true ↔ kind = .number := by
  cases h with
  | mark hm =>
    obtain ⟨n, hn⟩ := Mark.exists_ofChar?_of_spelling hm
    simp [(ofChar?_class hn).2.2.1]
  | word hc hk =>
    refine iff_of_false (by simp [isDigit_eq_false_of_isWordStart hc]) ?_
    rintro rfl
    exact hk
  | string => exact iff_of_false (by decide) (by decide)
  | number hc => exact iff_of_true hc rfl

private theorem isWordPart_iff (h : Opens c kind) :
    isWordPart c = true ↔ kind.IsWord ∨ kind = .number := by
  cases h with
  | @mark _ m _ hm =>
    obtain ⟨n, hn⟩ := Mark.exists_ofChar?_of_spelling hm
    obtain ⟨-, -, hdigit, hstart⟩ := ofChar?_class hn
    exact iff_of_false (by simp [isWordPart_eq, hdigit, hstart]) (by simp [Kind.IsWord])
  | word hc hk => exact iff_of_true (isWordPart_of_isWordStart hc) (Or.inl hk)
  | string => exact iff_of_false (by decide) (by simp [Kind.IsWord])
  | number hc => exact iff_of_true (isWordPart_of_isDigit hc) (Or.inr rfl)

private theorem eq_iff (h : Opens c kind) {e : Char} {n : Mark} (he : Mark.ofChar? e = some n) :
    c = e ↔ ∃ m, kind = .mark m ∧ m.spelling.head? = some e := by
  obtain ⟨-, hquote, hdigit, hstart⟩ := ofChar?_class he
  cases h with
  | @mark _ m _ hm => simp [hm]
  | word hc hk =>
    refine iff_of_false ?_ ?_
    · rintro rfl
      simp [hc] at hstart
    · rintro ⟨m, rfl, -⟩
      exact hk
  | string =>
    refine iff_of_false ?_ (by simp)
    rintro rfl
    simp at hquote
  | number hc =>
    refine iff_of_false ?_ (by simp)
    rintro rfl
    simp [hc] at hdigit

private theorem equal_iff (h : Opens c kind) :
    c = '=' ↔ kind ∈ [.mark .equal, .mark .equalEqual] := by
  rw [h.eq_iff rfl]
  constructor
  · rintro ⟨m, rfl, hm⟩
    revert hm
    cases m <;> decide
  · intro hk
    simp only [List.mem_cons, List.not_mem_nil, or_false] at hk
    rcases hk with rfl | rfl <;> exact ⟨_, rfl, rfl⟩

private theorem eq_iff_of_unique (h : Opens c kind) {e : Char} {n : Mark}
    (he : Mark.ofChar? e = some n)
    (hn : ∀ m : Mark, m.spelling.head? = some e → m = n) : c = e ↔ kind = .mark n := by
  rw [h.eq_iff he]
  constructor
  · rintro ⟨m, rfl, hm⟩
    rw [hn m hm]
  · rintro rfl
    exact ⟨n, rfl, by rw [Mark.spelling_of_ofChar? he]; rfl⟩

private theorem slash_iff (h : Opens c kind) : c = '/' ↔ kind = .mark .slash :=
  h.eq_iff_of_unique rfl fun m => by cases m <;> decide

private theorem dot_iff (h : Opens c kind) : c = '.' ↔ kind = .mark .dot :=
  h.eq_iff_of_unique rfl fun m => by cases m <;> decide

end Opens

def lexemes (tokens : List Token) : List (List Char) := tokens.map fun t => t.lexeme.toList

private theorem toList_join_lexemes (tokens : List Token) :
    (String.join (tokens.map Token.lexeme)).toList = (lexemes tokens).flatten := by
  rw [String.toList_join, List.flatMap_map, List.flatMap_def]
  rfl

private theorem flatten_lexemes_cons (t : Token) (rest : List Token) :
    (lexemes (t :: rest)).flatten = t.lexeme.toList ++ (lexemes rest).flatten := rfl

private theorem Token.WellFormed.exists_cons {t : Token} (h : t.WellFormed) :
    ∃ c w, t.lexeme.toList = c :: w ∧ Opens c t.kind := by
  obtain ⟨k, -, hs⟩ := Denotes.spells h
  obtain ⟨c, w, hcons⟩ := List.exists_cons_of_ne_nil hs.ne_nil
  rw [Token.WellFormed, hcons] at h
  exact ⟨c, w, hcons, h.opens⟩

section Rest
variable {rest : List Token}

private theorem forall_head_flatten_iff {P : Char → Prop} {Q : Kind → Prop}
    (hpq : ∀ {c kind}, Opens c kind → (P c ↔ Q kind)) (h : ∀ u ∈ rest, u.WellFormed) :
    (∀ c ∈ (lexemes rest).flatten.head?, ¬ P c) ↔ ¬ ∃ u ∈ rest.head?, Q u.kind := by
  cases rest with
  | nil => simp [lexemes]
  | cons u rest =>
    obtain ⟨c, w, hcons, hopens⟩ := (h u List.mem_cons_self).exists_cons
    simp [lexemes, hcons, hpq hopens]

private theorem toList_lexeme_of_dot {u : Token} (h : u.WellFormed) (hu : u.kind = .mark .dot) :
    u.lexeme.toList = ['.'] := by
  rw [Token.WellFormed, hu] at h
  generalize u.lexeme.toList = piece, u.literal = literal at h
  cases h
  rfl

private theorem forall_point_flatten_iff (h : ∀ u ∈ rest, u.WellFormed) :
    (∀ d more, (lexemes rest).flatten = '.' :: d :: more → d.isDigit = false) ↔
      ¬ ∃ u v more, rest = u :: v :: more ∧ u.kind = .mark .dot ∧ v.kind = .number := by
  constructor
  · rintro hall ⟨u, v, more, rfl, hu, hv⟩
    have hdot := toList_lexeme_of_dot (h u List.mem_cons_self) hu
    obtain ⟨d, w, hcons, hopens⟩ := (h v (by simp)).exists_cons
    have hflatten : (lexemes (u :: v :: more)).flatten =
        '.' :: d :: (w ++ (lexemes more).flatten) := by
      rw [flatten_lexemes_cons, flatten_lexemes_cons, hdot, hcons]
      rfl
    have hdigit := hall d _ hflatten
    rw [hopens.isDigit_iff.mpr hv] at hdigit
    cases hdigit
  · intro hnone d more hflatten
    rw [← Bool.not_eq_true]
    intro hdigit
    obtain ⟨u, rest, rfl⟩ : ∃ u rest', rest = u :: rest' := by
      cases rest with
      | nil => cases hflatten
      | cons u rest => exact ⟨u, rest, rfl⟩
    obtain ⟨c, w, hcons, hopens⟩ := (h u List.mem_cons_self).exists_cons
    rw [flatten_lexemes_cons, hcons] at hflatten
    have hu := hopens.dot_iff.mp (List.cons.inj hflatten).1
    rw [← hcons, toList_lexeme_of_dot (h u List.mem_cons_self) hu] at hflatten
    cases rest with
    | nil => cases hflatten
    | cons v rest =>
      obtain ⟨e, w, hcons, hopens⟩ := (h v (by simp)).exists_cons
      rw [flatten_lexemes_cons, hcons] at hflatten
      obtain rfl : e = d := (List.cons.inj (List.cons.inj hflatten).2).1
      exact hnone ⟨u, v, rest, rfl, hu, hopens.isDigit_iff.mp hdigit⟩

private theorem Spells.exists_isLongest_iff {k : Category} {piece more : List Char}
    (h : Spells k piece) :
    (∃ j, IsLongest j piece more) ↔ IsLongest k piece more := by
  constructor
  · rintro ⟨j, hl⟩
    rwa [h.unique hl.spells]
  · exact fun hl => ⟨k, hl⟩

/-- A lexeme is the longest match before the texts of the tokens behind it if they do not clash
with it. -/
theorem isLongest_iff_not_clashes {t : Token} (ht : t.WellFormed)
    (h : ∀ u ∈ rest, u.WellFormed) :
    (∃ k, IsLongest k t.lexeme.toList (lexemes rest).flatten) ↔ ¬ Clashes t rest := by
  have hword : (∀ c ∈ (lexemes rest).flatten.head?, isWordPart c = false) ↔
      ¬ ∃ u ∈ rest.head?, u.kind.IsWord ∨ u.kind = .number := by
    simp only [← Bool.not_eq_true]
    exact forall_head_flatten_iff (fun ho => ho.isWordPart_iff) h
  have hdigit : (∀ c ∈ (lexemes rest).flatten.head?, c.isDigit = false) ↔
      ¬ ∃ u ∈ rest.head?, u.kind = .number := by
    simp only [← Bool.not_eq_true]
    exact forall_head_flatten_iff (fun ho => ho.isDigit_iff) h
  rw [Token.WellFormed] at ht
  generalize hpiece : t.lexeme.toList = piece, hkind : t.kind = kind, t.literal = literal at ht
  cases ht with
  | mark m =>
    rw [(Spells.mark m).exists_isLongest_iff, isLongest_mark_iff, clashes_mark_iff hkind,
      forall_head_flatten_iff (fun ho => ho.slash_iff) h,
      forall_head_flatten_iff (fun ho => ho.equal_iff) h, not_or, not_and, not_and]
  | keyword k =>
    rw [(Spells.word k.word_spelling).exists_isLongest_iff, isLongest_word_iff k.word_spelling,
      hword, clashes_word_iff (hkind ▸ trivial)]
  | identifier hw =>
    rw [(Spells.word hw).exists_isLongest_iff, isLongest_word_iff hw, hword,
      clashes_word_iff (hkind ▸ trivial)]
  | string hb =>
    exact iff_of_true ⟨_, isLongest_string hb _⟩ (not_clashes_string hkind)
  | integer hw =>
    have hpoint : '.' ∉ piece := fun hm => absurd (hw.2 _ hm) (by decide)
    rw [(Spells.integer hw).exists_isLongest_iff, isLongest_integer_iff hw, hdigit,
      forall_point_flatten_iff h, clashes_number_iff hkind, not_or]
    simp [hpiece, hpoint]
  | decimal hw hf =>
    rw [(Spells.decimal hw hf).exists_isLongest_iff, isLongest_decimal_iff hw hf, hdigit,
      clashes_number_iff hkind]
    simp [hpiece]

end Rest

section Munch
variable {before text : List Char} {pieces : List (List Char)} {tokens : List Token}
  {faults : List Fault}

private theorem Munch.isLongest_of_suffix (h : Munch before text pieces tokens faults)
    (hf : faults = [])
    {piece : List Char} {later : List (List Char)} (hs : piece :: later <:+ pieces) :
    ∃ k, IsLongest k piece later.flatten := by
  induction h with
  | done => simp at hs
  | token hl _ hm ih | gap hl _ hm ih =>
    rcases List.suffix_cons_iff.mp hs with heq | hs
    · obtain ⟨rfl, rfl⟩ := List.cons.inj heq
      rw [hm.flatten_pieces.1]
      exact ⟨_, hl⟩
    · exact ih hf hs
  | openString | stray => cases hf

private theorem Munch.lexemes_sublist (h : Munch before text pieces tokens faults) :
    (lexemes tokens).Sublist pieces := by
  induction h with
  | done => exact List.Sublist.slnil
  | @token before piece _ _ _ _ _ _ _ _ _ _ ih =>
    rw [lexemes, List.map_cons, String.toList_ofList]
    exact ih.cons_cons piece
  | gap _ _ _ ih | stray _ _ _ ih => exact ih.cons _
  | openString => exact List.nil_sublist _

private theorem eq_of_sublist_of_flatten_eq {some all : List (List Char)} (h : some.Sublist all)
    (hne : [] ∉ all) (hflatten : some.flatten = all.flatten) : some = all := by
  induction h with
  | slnil => rfl
  | @cons some all piece hs _ =>
    have hpos : 0 < piece.length := by
      refine List.length_pos_of_ne_nil ?_
      rintro rfl
      exact hne List.mem_cons_self
    have hle := hs.flatten.length_le
    rw [hflatten, List.flatten_cons, List.length_append] at hle
    omega
  | cons_cons piece _ ih =>
    rw [List.flatten_cons, List.flatten_cons, List.append_cancel_left_eq] at hflatten
    rw [ih (fun hm => hne (List.mem_cons_of_mem _ hm)) hflatten]

end Munch

private theorem lexemes_eq_map_content (tokens : List Token) :
    lexemes tokens = (tokens.map Token.content).map fun c => c.2.1.toList := by
  rw [List.map_map]
  rfl

private theorem printed_unspaced (tokens : List Token) :
    printed [] (tokens.map fun t => (t, [])) = (lexemes tokens).flatten := by
  induction tokens with
  | nil => rfl
  | cons t rest ih => rw [List.map_cons, printed, ih, flatten_lexemes_cons, List.nil_append]

/-- Tokens written without separators are scanned as they were if and only if each lexeme is the
longest match where it stands. -/
theorem scan_join_iff_isLongest {tokens : List Token} (h : ∀ t ∈ tokens, t.WellFormed)
    {source : String} (hsource : source = String.join (tokens.map Token.lexeme)) :
    ((scan source).faults = [] ∧ (scan source).tokens.map Token.content =
        tokens.map Token.content ++ [(.endOfInput, "", none)]) ↔
      ∀ t rest, t :: rest <:+ tokens → ∃ k, IsLongest k t.lexeme.toList (lexemes rest).flatten := by
  have htext : source.toList = (lexemes tokens).flatten := by rw [hsource, toList_join_lexemes]
  constructor
  · rintro ⟨hfaults, hcontents⟩ t rest hs
    obtain ⟨found, hfound, hm⟩ := munch_scan source
    rw [hfound, List.map_append] at hcontents
    have hlexemes : lexemes found = lexemes tokens := by
      rw [lexemes_eq_map_content, lexemes_eq_map_content, List.append_cancel_right hcontents]
    obtain ⟨hflatten, hne⟩ := hm.flatten_pieces
    have hpieces : lexemes found = cuts source :=
      eq_of_sublist_of_flatten_eq hm.lexemes_sublist hne (by rw [hflatten, hlexemes, htext])
    have hsuffix : lexemes (t :: rest) <:+ cuts source := by
      rw [← hpieces, hlexemes]
      exact hs.map _
    exact hm.isLongest_of_suffix hfaults hsuffix
  · intro hlongest
    let items := tokens.map fun t => (t, ([] : List Char))
    have hitems : ∀ item ∈ items, item.1.WellFormed ∧ Blanks item.2 := by
      simpa [items] using fun t ht => ⟨h t ht, blanks_nil⟩
    have hends : ∀ item rest, item :: rest <:+ items →
        ∃ k, IsLongest k item.1.lexeme.toList (printed item.2 rest) := by
      intro item rest hs
      obtain ⟨suffix, hsuffix, hitem⟩ := List.suffix_map_iff.mp hs
      obtain ⟨t, later, rfl, rfl, rfl⟩ := List.map_eq_cons_iff.mp hitem.symm
      rw [printed_unspaced]
      exact hlongest t later hsuffix
    obtain ⟨pieces, hm⟩ := munch_printed_of_isLongest blanks_nil hitems hends []
    rw [printed_unspaced, ← htext] at hm
    rw [hm.scan_eq, List.map_append, content_relined, List.map_map, List.map_map]
    exact ⟨rfl, rfl⟩

/-- Well-formed tokens written without separators are scanned as they were if and only if none of
them clashes with those behind it. -/
theorem scan_join_iff {tokens : List Token} (h : ∀ t ∈ tokens, t.WellFormed) :
    let source := String.join (tokens.map Token.lexeme)
    ((scan source).faults = [] ∧ (scan source).tokens.map Token.content =
        tokens.map Token.content ++ [(.endOfInput, "", none)]) ↔
      ∀ t rest, t :: rest <:+ tokens → ¬ Clashes t rest := by
  intro source
  rw [scan_join_iff_isLongest h rfl]
  refine forall_congr' fun t => forall_congr' fun rest => imp_congr_right fun hs => ?_
  exact isLongest_iff_not_clashes (h t (hs.subset List.mem_cons_self))
    fun u hu => h u (hs.subset (List.mem_cons_of_mem t hu))

/-- A dot and a digit go on from a whole number, but not from one that has a point. -/
theorem scan_join_points :
    let whole : Token := ⟨.number, "1", some (.number (Binary64.nearestToRatio 1 1)), 1⟩
    let decimal : Token := ⟨.number, "1.5", some (.number (Binary64.nearestToRatio 15 10)), 1⟩
    let five : Token := ⟨.number, "5", some (.number (Binary64.nearestToRatio 5 1)), 1⟩
    let dot : Token := ⟨.mark .dot, ".", none, 1⟩
    (scan "1.5.5").tokens.map Token.content =
        [decimal, dot, five].map Token.content ++ [(.endOfInput, "", none)] ∧
      (scan "1.5").faults = [] ∧
      (scan "1.5").tokens.map Token.content ≠
        [whole, dot, five].map Token.content ++ [(.endOfInput, "", none)] := by
  intro whole decimal five dot
  have hinteger (d : Char) (hd : d.isDigit = true) : Digits [d] := ⟨by simp, by simpa using hd⟩
  have hwhole : whole.WellFormed := by
    simpa [Token.WellFormed, whole] using! Denotes.integer (hinteger '1' (by decide))
  have hfive : five.WellFormed := by
    simpa [Token.WellFormed, five] using! Denotes.integer (hinteger '5' (by decide))
  have hdecimal : decimal.WellFormed := by
    have h := Denotes.decimal (hinteger '1' (by decide)) (hinteger '5' (by decide))
    simpa [Token.WellFormed, decimal] using! h
  have hdot : dot.WellFormed := by
    simpa [Token.WellFormed, dot] using! Denotes.mark .dot
  have hkept := @scan_join_iff [decimal, dot, five] (by simp [hdecimal, hdot, hfive])
  have hmerged := @scan_join_iff [whole, dot, five] (by simp [hwhole, hdot, hfive])
  have hclash : Clashes whole [dot, five] := .point rfl (by decide) rfl rfl
  have hclear : ∀ t rest, t :: rest <:+ [decimal, dot, five] → ¬ Clashes t rest := by
    intro t rest hs
    simp only [List.suffix_cons_iff, List.cons.injEq, List.suffix_nil, reduceCtorEq, or_false] at hs
    rcases hs with ⟨rfl, rfl⟩ | ⟨rfl, rfl⟩ | ⟨rfl, rfl⟩
    · rw [clashes_number_iff rfl]
      simp [decimal, dot]
    · rw [clashes_mark_iff rfl]
      simp [Mark.withEqual?]
    · rw [clashes_number_iff rfl]
      simp
  have hfaults : (scan "1.5").faults = [] := by decide +kernel
  refine ⟨(hkept.mpr hclear).2, hfaults, fun hcontents => ?_⟩
  exact hmerged.mp ⟨hfaults, hcontents⟩ whole [dot, five] List.suffix_rfl hclash

end LoxLexis
