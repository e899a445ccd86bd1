import LoxLexis.Proofs.LexemeSeams

/-! Tokens that are printed with blanks between them are scanned as they were. -/
namespace LoxLexis
open Alphabet

def Blanks (text : List Char) : Prop := ∀ c ∈ text, c = ' ' ∨ c = '\t' ∨ c = '\r' ∨ c = '\n'

theorem blanks_nil : Blanks [] := fun _ hc => absurd hc List.not_mem_nil

private theorem blanks_space : Blanks [' '] := fun _ hc => Or.inl (List.mem_singleton.mp hc)

/-- The kind and the value are those that the lexeme denotes. -/
def Token.WellFormed (t : Token) : Prop := Denotes t.lexeme.toList t.kind t.literal

/-- All of a token but its line. -/
def Token.content (t : Token) : Kind × String × Option Literal := (t.kind, t.lexeme, t.literal)

/-- A text, then the lexemes of the tokens, each with a text of its own behind it. -/
def printed : List Char → List (Token × List Char) → List Char
  | lead, [] => lead
  | lead, (t, gap) :: rest => lead ++ (t.lexeme.toList ++ printed gap rest)

/-- The printed tokens, each with the line on which it comes to stand. -/
def relined : List Char → List (Token × List Char) → List Token
  | _, [] => []
  | before, (t, gap) :: rest =>
    { t with line := lineAfter before } :: relined (before ++ t.lexeme.toList ++ gap) rest

private theorem Denotes.isLongest {piece rest : List Char} {kind : Kind} {literal : Option Literal}
    (h : Denotes piece kind literal) (hrest : ∀ c ∈ rest.head?, isBlank c = true) :
    ∃ k, IsLongest k piece rest := by
  obtain ⟨k, -, hs⟩ := h.spells
  exact ⟨k, hs.isLongest (h.ne_comment hs) hrest⟩

/-- Blanks add nothing to what follows them. -/
theorem munch_blanks {lead : List Char} (h : Blanks lead) {before rest : List Char}
    {pieces : List (List Char)} {tokens : List Token} {faults : List Fault}
    (hm : Munch (before ++ lead) rest pieces tokens faults) :
    ∃ more, Munch before (lead ++ rest) more tokens faults := by
  induction lead generalizing before with
  | nil => exact ⟨pieces, by rwa [List.append_nil] at hm⟩
  | cons c lead ih =>
    have hc := isBlank_iff.mpr (h c List.mem_cons_self)
    have hlead : Blanks lead := fun d hd => h d (List.mem_cons_of_mem _ hd)
    rw [List.append_cons] at hm
    obtain ⟨more, hmore⟩ := ih hlead hm
    have hcons : Munch before ([c] ++ (lead ++ rest)) _ _ _ :=
      .gap (isLongest_blank hc _) (Or.inl rfl) hmore
    exact ⟨_, hcons⟩

private theorem forall_mem_dropLast_cons {α : Type} {P : α → Prop} {x : α} {xs : List α} :
    (∀ y ∈ (x :: xs).dropLast, P y) ↔ (xs ≠ [] → P x) ∧ ∀ y ∈ xs.dropLast, P y := by
  cases xs <;> simp

private theorem head_printed {gap : List Char} (hgap : Blanks gap) {rest : List (Token × List Char)}
    (hne : rest ≠ [] → gap ≠ []) : ∀ c ∈ (printed gap rest).head?, isBlank c = true := by
  intro c hc
  cases gap with
  | cons b gap =>
    have hb : b = c := by cases rest <;> simpa [printed] using hc
    exact isBlank_iff.mpr (hb ▸ hgap b List.mem_cons_self)
  | nil =>
    cases rest with
    | nil => simp [printed] at hc
    | cons => exact absurd rfl (hne (List.cons_ne_nil _ _))

/-- The tokens are cut out again one by one if each lexeme is the longest match where it stands. -/
theorem munch_printed_of_isLongest {lead : List Char} {items : List (Token × List Char)}
    (hlead : Blanks lead) (hitems : ∀ item ∈ items, item.1.WellFormed ∧ Blanks item.2)
    (hlongest : ∀ item rest, item :: rest <:+ items →
      ∃ k, IsLongest k item.1.lexeme.toList (printed item.2 rest)) (before : List Char) :
    ∃ pieces, Munch before (printed lead items) pieces (relined (before ++ lead) items) [] := by
  induction items generalizing before lead with
  | nil =>
    have hdone : ∃ pieces, Munch before (lead ++ []) pieces [] [] := munch_blanks hlead .done
    rwa [List.append_nil] at hdone
  | cons item rest ih =>
    obtain ⟨t, gap⟩ := item
    obtain ⟨hwell, hgap⟩ := hitems _ List.mem_cons_self
    obtain ⟨k, hl⟩ := hlongest _ rest List.suffix_rfl
    obtain ⟨pieces, hm⟩ := ih hgap (fun item hmem => hitems item (List.mem_cons_of_mem _ hmem))
      (fun item later hs => hlongest item later (hs.trans (List.suffix_cons _ _)))
      (before ++ lead ++ t.lexeme.toList)
    have htoken := Munch.token hl hwell hm
    rw [String.ofList_toList] at htoken
    exact munch_blanks hlead htoken

private theorem mem_dropLast_of_suffix {α : Type} {x : α} {rest xs : List α} (h : x :: rest <:+ xs)
    (hne : rest ≠ []) : x ∈ xs.dropLast := by
  obtain ⟨front, rfl⟩ := h
  rw [List.dropLast_append_of_ne_nil (List.cons_ne_nil _ _), List.dropLast_cons_of_ne_nil hne]
  exact List.mem_append_right _ List.mem_cons_self

private theorem munch_printed {lead : List Char} {items : List (Token × List Char)}
    (hlead : Blanks lead)
    (hitems : ∀ item ∈ items, item.1.WellFormed ∧ Blanks item.2)
    (hgaps : ∀ item ∈ items.dropLast, item.2 ≠ []) (before : List Char) :
    ∃ pieces, Munch before (printed lead items) pieces (relined (before ++ lead) items) [] := by
  refine munch_printed_of_isLongest hlead hitems (fun item rest hs => ?_) before
  obtain ⟨hwell, hgap⟩ := hitems item (hs.subset List.mem_cons_self)
  exact hwell.isLongest (head_printed hgap fun hne => hgaps item (mem_dropLast_of_suffix hs hne))

theorem Munch.wellFormed {before text : List Char} {pieces : List (List Char)}
    {tokens : List Token} {faults : List Fault} (h : Munch before text pieces tokens faults) :
    ∀ t ∈ tokens, t.WellFormed := by
  induction h with
  | done | openString => exact fun t ht => absurd ht List.not_mem_nil
  | token _ hd _ ih =>
    intro t ht
    rcases List.mem_cons.mp ht with rfl | ht
    · rwa [Token.WellFormed, String.toList_ofList]
    · exact ih t ht
  | gap _ _ _ ih | stray _ _ _ ih => exact ih

/-- Tokens with a space between any two and a text behind the last. -/
def spaced (trail : List Char) : List Token → List (Token × List Char)
  | [] => []
  | [t] => [(t, trail)]
  | t :: next :: rest => (t, [' ']) :: spaced trail (next :: rest)

private theorem map_fst_spaced (trail : List Char) (tokens : List Token) :
    (spaced trail tokens).map Prod.fst = tokens := by
  fun_induction spaced trail tokens with
  | case1 | case2 => rfl
  | case3 t next rest ih => rw [List.map_cons, ih]

private theorem spaced_gaps {trail : List Char} (h : Blanks trail) {tokens : List Token}
    {item : Token × List Char} (hm : item ∈ spaced trail tokens) : Blanks item.2 := by
  fun_induction spaced trail tokens with
  | case1 => cases hm
  | case2 =>
    obtain rfl := List.mem_singleton.mp hm
    exact h
  | case3 t next rest ih =>
    rcases List.mem_cons.mp hm with rfl | hm
    · exact blanks_space
    · exact ih hm

private theorem spaced_dropLast (trail : List Char) (tokens : List Token) :
    ∀ item ∈ (spaced trail tokens).dropLast, item.2 ≠ [] := by
  fun_induction spaced trail tokens with
  | case1 | case2 => exact fun _ hm => absurd hm List.not_mem_nil
  | case3 t next rest ih =>
    exact forall_mem_dropLast_cons.mpr ⟨fun _ => List.cons_ne_nil _ _, ih⟩

private theorem printed_lead (lead : List Char) (items : List (Token × List Char)) :
    printed lead items = lead ++ printed [] items := by
  cases items <;> simp [printed]

private theorem ofList_printed_cons (t : Token) (items : List (Token × List Char)) :
    String.ofList (printed [] ((t, [' ']) :: items)) =
      t.lexeme ++ " " ++ String.ofList (printed [] items) := by
  rw [printed, printed_lead [' '], List.nil_append, String.ofList_append, String.ofList_toList,
    String.ofList_append, String.append_assoc]

private theorem ofList_printed_spaced (tokens : List Token) :
    String.ofList (printed [] (spaced [] tokens)) = " ".intercalate (tokens.map Token.lexeme) := by
  fun_induction spaced [] tokens with
  | case1 => rfl
  | case2 t => simp [printed]
  | case3 t next rest ih =>
    rw [ofList_printed_cons, ih]
    exact (String.intercalate_cons_of_ne_nil (List.cons_ne_nil _ _)).symm

private theorem ofList_printed_spaced_concat (tokens : List Token) {last : Token}
    (h : last.lexeme = "") :
    String.ofList (printed [] (spaced [' '] tokens)) =
      " ".intercalate ((tokens ++ [last]).map Token.lexeme) := by
  fun_induction spaced [' '] tokens with
  | case1 => simp [printed, h]
  | case2 t => simp [printed, h, String.ofList_append, String.intercalate_cons_cons]
  | case3 t next rest ih =>
    rw [ofList_printed_cons, ih]
    exact (String.intercalate_cons_of_ne_nil (List.cons_ne_nil _ _)).symm

theorem content_relined (before : List Char) (items : List (Token × List Char)) :
    (relined before items).map Token.content = (items.map Prod.fst).map Token.content := by
  induction items generalizing before with
  | nil => rfl
  | cons item rest ih =>
    rw [relined, List.map_cons, ih]
    rfl

theorem scan_ofList_printed {lead : List Char} {items : List (Token × List Char)}
    (hlead : Blanks lead) (hitems : ∀ item ∈ items, item.1.WellFormed ∧ Blanks item.2)
    (hgaps : ∀ item ∈ items.dropLast, item.2 ≠ []) :
    scan (String.ofList (printed lead items)) =
      ⟨relined lead items ++ [Token.atEnd (String.ofList (printed lead items))], []⟩ := by
  obtain ⟨pieces, hm⟩ := munch_printed hlead hitems hgaps []
  rw [List.nil_append, ← String.toList_ofList (l := printed lead items)] at hm
  exact hm.scan_eq

/-- Tokens that are spaced out are scanned with the same contents. -/
theorem scan_spaced {tokens : List Token} (h : ∀ t ∈ tokens, t.WellFormed) {trail : List Char}
    (htrail : Blanks trail) (source : String) :
    (scan (String.ofList (printed [] (spaced trail tokens)))).faults = [] ∧
      (scan (String.ofList (printed [] (spaced trail tokens)))).tokens.map Token.content =
        (tokens ++ [Token.atEnd source]).map Token.content := by
  have hwell (item : Token × List Char) (hm : item ∈ spaced trail tokens) : item.1.WellFormed := by
    refine h item.1 ?_
    rw [← map_fst_spaced trail tokens]
    exact List.mem_map_of_mem hm
  have hscan : scan (String.ofList (printed [] (spaced trail tokens))) = _ :=
    scan_ofList_printed blanks_nil (fun item hm => ⟨hwell item hm, spaced_gaps htrail hm⟩)
      (spaced_dropLast trail tokens)
  rw [hscan, List.map_append, List.map_append, content_relined, map_fst_spaced]
  exact ⟨rfl, rfl⟩

/-- Every token of a scan but the last is well formed. Well-formed tokens that are printed with
blanks between them are scanned as they were, each with the line on which it now stands. So the
lexemes of a scan with spaces between them, whether with the empty one at the end or without it,
are scanned as the tokens that they came from. -/
theorem scan_printed :
    (∀ source, ∀ t ∈ (scan source).tokens, t.kind ≠ .endOfInput → t.WellFormed) ∧
      (∀ (lead : List Char) (items : List (Token × List Char)), Blanks lead →
        (∀ item ∈ items, item.1.WellFormed ∧ Blanks item.2) →
        (∀ item ∈ items.dropLast, item.2 ≠ []) →
        scan (String.ofList (printed lead items)) =
          ⟨relined lead items ++ [Token.atEnd (String.ofList (printed lead items))], []⟩) ∧
      ∀ source, ∀ shown ∈ [(scan source).tokens, (scan source).tokens.dropLast],
        (scan (" ".intercalate (shown.map Token.lexeme))).faults = [] ∧
          (scan (" ".intercalate (shown.map Token.lexeme))).tokens.map Token.content =
            (scan source).tokens.map Token.content := by
  refine ⟨?_, fun _ _ => scan_ofList_printed, ?_⟩
  · intro source t ht hkind
    obtain ⟨tokens, htokens, hm⟩ := munch_scan source
    rw [htokens] at ht
    rcases List.mem_append.mp ht with ht | ht
    · exact hm.wellFormed t ht
    · obtain rfl := List.mem_singleton.mp ht
      exact absurd rfl hkind
  · intro source shown hs
    obtain ⟨tokens, htokens, hm⟩ := munch_scan source
    rw [htokens, List.dropLast_concat] at hs
    rw [htokens]
    rcases List.mem_cons.mp hs with rfl | hs
    · rw [← ofList_printed_spaced_concat tokens rfl]
      exact scan_spaced hm.wellFormed blanks_space source
    · obtain rfl := List.mem_singleton.mp hs
      rw [← ofList_printed_spaced]
      exact scan_spaced hm.wellFormed blanks_nil source

/-- A slash before a string that holds two of them, over three lines. -/
theorem scan_printed_slashes :
    let slash : Token := ⟨.mark .slash, "/", none, 0⟩
    let number : Token := ⟨.number, "1.5", some (.number (Binary64.nearestToRatio 15 10)), 0⟩
    let text : Token := ⟨.string, "\"//\n\"", some (.string "//\n"), 0⟩
    let items := [(number, [' ']), (slash, ['\n']), (text, [])]
    let source := String.ofList (printed ['\t'] items)
    scan source =
        ⟨[{ number with line := 1 }, { slash with line := 1 }, { text with line := 2 },
          Token.atEnd source], []⟩ ∧
      Token.WellFormed { text with line := 2 } ∧
      (scan (" ".intercalate ((scan source).tokens.map Token.lexeme))).faults = [] := by
  intro slash number text items source
  have hslash : slash.WellFormed := by
    simpa [Token.WellFormed, slash] using! Denotes.mark .slash
  have hnumber : number.WellFormed := by
    have h := @Denotes.decimal ['1'] ['5'] ⟨by decide, by simp⟩ ⟨by decide, by simp⟩
    simpa [Token.WellFormed, number] using! h
  have htext : text.WellFormed := by
    simpa [Token.WellFormed, text] using! @Denotes.string ['/', '/', '\n'] (by decide)
  have hitems : ∀ item ∈ items, item.1.WellFormed ∧ Blanks item.2 := by
    simp [items, hslash, hnumber, htext, Blanks]
  have hscan := scan_printed.2.1 ['\t'] items (by simp [Blanks]) hitems (by simp [items])
  have htokens : relined ['\t'] items =
      [{ number with line := 1 }, { slash with line := 1 }, { text with line := 2 }] := by
    simp [relined, items, lineAfter, number, slash]
  rw [htokens] at hscan
  refine ⟨hscan, scan_printed.1 source _ ?_ (by simp [text]),
    (scan_printed.2.2 source _ List.mem_cons_self).1⟩
  rw [hscan]
  simp

end LoxLexis
