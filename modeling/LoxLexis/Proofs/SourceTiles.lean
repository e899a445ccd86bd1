import LoxLexis.Proofs.MaximalMunch

/-! The bytes of a source, each of which belongs to a token, a fault, a blank or a comment. -/
namespace LoxLexis

inductive Owner where
  | token (t : Token)
  | fault (f : Fault)
  | blank
  | comment
deriving DecidableEq, Repr

/-- Who may own a text, given what stands before and after it. -/
inductive Owns : Owner → List Char → List Char → List Char → Prop where
  | token {t : Token} {before text after : List Char} : t.kind ≠ .endOfInput → text ≠ [] →
      t.lexeme = String.ofList text → t.line = lineAfter before →
      Owns (.token t) before text after
  | stray {c : Char} {before after : List Char} :
      Owns (.fault (.unexpectedCharacter c (lineAfter before))) before [c] after
  | openString {before body : List Char} : '"' ∉ body →
      Owns (.fault (.unterminatedString (lineAfter (before ++ '"' :: body))))
        before ('"' :: body) []
  | blank {c : Char} {before after : List Char} : c = ' ' ∨ c = '\t' ∨ c = '\r' ∨ c = '\n' →
      Owns .blank before [c] after
  | comment {before body after : List Char} : '\n' ∉ body → (∀ c ∈ after.head?, c = '\n') →
      Owns .comment before ('/' :: '/' :: body) after

/-- A stretch of a source with its owner. -/
structure Tile (source : String) where
  before : List Char
  text : List Char
  after : List Char
  owner : Owner
  whole : before ++ (text ++ after) = source.toList
  owns : Owns owner before text after

variable {source : String}

private theorem Owns.ne_nil {owner : Owner} {before text after : List Char}
    (h : Owns owner before text after) : text ≠ [] := by
  cases h with
  | token _ hne => exact hne
  | stray | openString | blank | comment => exact List.cons_ne_nil _ _

def byteLength (text : List Char) : Nat := (String.ofList text).utf8ByteSize

theorem byteLength_append (first second : List Char) :
    byteLength (first ++ second) = byteLength first + byteLength second := by
  rw [byteLength, String.ofList_append, String.utf8ByteSize_append]
  rfl

theorem byteLength_cons (c : Char) (text : List Char) :
    byteLength (c :: text) = c.utf8Size + byteLength text := by
  rw [← List.singleton_append, byteLength_append]
  simp [byteLength]

/-- Each character has a byte at least. -/
theorem length_le_byteLength (text : List Char) : text.length ≤ byteLength text := by
  induction text with
  | nil => exact Nat.zero_le _
  | cons c text ih =>
    have hc := c.utf8Size_pos
    rw [byteLength_cons, List.length_cons]
    omega

theorem byteLength_toList (source : String) : byteLength source.toList = source.utf8ByteSize := by
  rw [byteLength, String.ofList_toList]

theorem byteLength_pos {text : List Char} (h : text ≠ []) : 0 < byteLength text := by
  rw [byteLength, Nat.pos_iff_ne_zero, Ne, String.utf8ByteSize_eq_zero_iff]
  intro hempty
  exact h (by rw [← String.toList_ofList (l := text), hempty, String.toList_empty])

theorem byteLength_le_of_prefix {before longer : List Char} (h : before <+: longer) :
    byteLength before ≤ byteLength longer := by
  obtain ⟨more, rfl⟩ := h
  rw [byteLength_append]
  exact Nat.le_add_right _ _

/-- Where a first part of the source ends, a character does. -/
theorem isValid_byteLength {before after : List Char} (h : before ++ after = source.toList) :
    (⟨byteLength before⟩ : String.Pos.Raw).IsValid source := by
  refine String.Pos.Raw.isValid_iff_exists_append.mpr
    ⟨String.ofList before, String.ofList after, ?_, rfl⟩
  rw [← String.ofList_append, h, String.ofList_toList]

private theorem extract_append_append (a b c : ByteArray) :
    (a ++ (b ++ c)).extract a.size (a.size + b.size) = b := by
  have hshift := ByteArray.extract_append_size_add (a := a) (b := b ++ c) (i := 0) (j := b.size)
  rw [Nat.add_zero] at hshift
  exact hshift.trans (ByteArray.extract_append_eq_left rfl)

namespace Tile

def first (tile : Tile source) : Nat := byteLength tile.before

def past (tile : Tile source) : Nat := byteLength (tile.before ++ tile.text)

def token? (tile : Tile source) : Option Token :=
  match tile.owner with
  | .token t => some t
  | _ => none

def fault? (tile : Tile source) : Option Fault :=
  match tile.owner with
  | .fault f => some f
  | _ => none

private theorem first_lt_past (tile : Tile source) : tile.first < tile.past := by
  rw [first, past, byteLength_append]
  exact Nat.lt_add_of_pos_right (byteLength_pos tile.owns.ne_nil)

private theorem whole_string (tile : Tile source) :
    String.ofList tile.before ++ (String.ofList tile.text ++ String.ofList tile.after) = source := by
  rw [← String.ofList_append, ← String.ofList_append, tile.whole, String.ofList_toList]

private theorem first_valid (tile : Tile source) : (⟨tile.first⟩ : String.Pos.Raw).IsValid source :=
  isValid_byteLength tile.whole

private theorem past_valid (tile : Tile source) :
    (⟨tile.past⟩ : String.Pos.Raw).IsValid source := by
  have hwhole := tile.whole
  rw [← List.append_assoc] at hwhole
  exact isValid_byteLength hwhole

private theorem extract_eq (tile : Tile source) :
    source.toByteArray.extract tile.first tile.past = (String.ofList tile.text).toByteArray := by
  have hpast : tile.past = tile.first + byteLength tile.text := byteLength_append _ _
  have hbytes : source.toByteArray = (String.ofList tile.before).toByteArray ++
      ((String.ofList tile.text).toByteArray ++ (String.ofList tile.after).toByteArray) := by
    rw [← String.toByteArray_append, ← String.toByteArray_append, tile.whole_string]
  rw [hpast, hbytes]
  exact extract_append_append _ _ _

private theorem of_token? {tile : Tile source} {t : Token} (h : tile.token? = some t) :
    t.kind ≠ .endOfInput ∧ t.lexeme = String.ofList tile.text ∧ t.line = lineAfter tile.before := by
  obtain ⟨before, text, after, owner, hwhole, howns⟩ := tile
  cases howns with
  | token hkind _ hlexeme hline =>
    obtain rfl := Option.some.inj h
    exact ⟨hkind, hlexeme, hline⟩
  | stray | openString | blank | comment => cases h

private theorem line_of_fault? {tile : Tile source} {f : Fault} (h : tile.fault? = some f) :
    lineAfter tile.before ≤ f.line ∧ f.line ≤ lineAfter (tile.before ++ tile.text) := by
  obtain ⟨before, text, after, owner, hwhole, howns⟩ := tile
  have hle : lineAfter before ≤ lineAfter (before ++ text) :=
    lineAfter_le_of_prefix (List.prefix_append _ _)
  cases howns with
  | stray =>
    obtain rfl := Option.some.inj h
    exact ⟨Nat.le_refl _, hle⟩
  | openString =>
    obtain rfl := Option.some.inj h
    exact ⟨hle, Nat.le_refl _⟩
  | token | blank | comment => cases h

private theorem line_of_isUnterminated {tile : Tile source} {f : Fault} (h : tile.fault? = some f)
    (hopen : f.isUnterminated = true) : f.line = lineAfter source.toList := by
  obtain ⟨before, text, after, owner, hwhole, howns⟩ := tile
  cases howns with
  | stray =>
    obtain rfl := Option.some.inj h
    cases hopen
  | openString =>
    obtain rfl := Option.some.inj h
    rw [← hwhole, List.append_nil]
    rfl
  | token | blank | comment => cases h

end Tile

/-- Tiles without a break from the end of a text to the end of the source. -/
def Adjoin : List Char → List (Tile source) → Prop
  | before, [] => before = source.toList
  | before, tile :: rest => tile.before = before ∧ Adjoin (before ++ tile.text) rest

namespace Adjoin
variable {before : List Char} {tiles : List (Tile source)}

private theorem prefix_of_mem (h : Adjoin before tiles) {tile : Tile source} (hm : tile ∈ tiles) :
    before <+: tile.before := by
  induction tiles generalizing before with
  | nil => cases hm
  | cons one rest ih =>
    obtain ⟨hone, hrest⟩ := h
    rcases List.mem_cons.mp hm with rfl | hm
    · exact ⟨[], by rw [List.append_nil, hone]⟩
    · exact (List.prefix_append _ _).trans (ih hrest hm)

private theorem pairwise (h : Adjoin before tiles) :
    tiles.Pairwise fun a b => a.before ++ a.text <+: b.before := by
  induction tiles generalizing before with
  | nil => exact List.Pairwise.nil
  | cons one rest ih =>
    obtain ⟨hone, hrest⟩ := h
    refine List.pairwise_cons.mpr ⟨fun tile hm => ?_, ih hrest⟩
    rw [hone]
    exact hrest.prefix_of_mem hm

private theorem exists_mem (h : Adjoin before tiles) {i : Nat} (hfrom : byteLength before ≤ i)
    (hto : i < source.utf8ByteSize) : ∃ tile ∈ tiles, tile.first ≤ i ∧ i < tile.past := by
  induction tiles generalizing before with
  | nil =>
    have hend : before = source.toList := h
    rw [hend, byteLength_toList] at hfrom
    exact absurd hto (Nat.not_lt.mpr hfrom)
  | cons one rest ih =>
    obtain ⟨hone, hrest⟩ := h
    subst hone
    by_cases hi : i < one.past
    · exact ⟨one, List.mem_cons_self, hfrom, hi⟩
    · obtain ⟨tile, hm, htile⟩ := ih hrest (Nat.not_lt.mp hi)
      exact ⟨tile, List.mem_cons_of_mem _ hm, htile⟩

end Adjoin

/-- The tiles of a derivation. -/
theorem Munch.tiles {before text : List Char} {pieces : List (List Char)} {tokens : List Token}
    {faults : List Fault} (h : Munch before text pieces tokens faults)
    (hwhole : before ++ text = source.toList) :
    ∃ tiles : List (Tile source), Adjoin before tiles ∧ tiles.filterMap Tile.token? = tokens ∧
      tiles.filterMap Tile.fault? = faults := by
  induction h with
  | done => exact ⟨[], by rw [Adjoin, ← hwhole, List.append_nil], rfl, rfl⟩
  | @token before piece rest pieces tokens faults k kind literal hl hd _ ih =>
    obtain ⟨tiles, hadjoin, rfl, rfl⟩ := ih (by rw [List.append_assoc, hwhole])
    have howns : Owns (.token ⟨kind, String.ofList piece, literal, lineAfter before⟩) before piece
        rest := .token hd.kind_ne_endOfInput hl.spells.ne_nil rfl rfl
    exact ⟨⟨before, piece, rest, _, hwhole, howns⟩ :: tiles, ⟨rfl, hadjoin⟩, rfl, rfl⟩
  | @gap before piece rest pieces tokens faults k hl hk _ ih =>
    obtain ⟨tiles, hadjoin, rfl, rfl⟩ := ih (by rw [List.append_assoc, hwhole])
    rcases hk with rfl | rfl
    · have howns : Owns .blank before piece rest := by
        cases hl.spells with
        | blank hb => exact .blank hb
      exact ⟨⟨before, piece, rest, _, hwhole, howns⟩ :: tiles, ⟨rfl, hadjoin⟩, rfl, rfl⟩
    · have howns : Owns .comment before piece rest := by
        have hend := hl.comment_end
        cases hl.spells with
        | comment hb => exact .comment hb hend
      exact ⟨⟨before, piece, rest, _, hwhole, howns⟩ :: tiles, ⟨rfl, hadjoin⟩, rfl, rfl⟩
  | @openString before rest hu =>
    refine ⟨[⟨before, '"' :: rest, [], _, by simpa using hwhole, .openString hu.quote_not_mem⟩],
      ⟨rfl, hwhole⟩, rfl, rfl⟩
  | @stray before rest pieces tokens faults c hu hq _ ih =>
    obtain ⟨tiles, hadjoin, rfl, rfl⟩ := ih (by rw [List.append_assoc, ← hwhole]; rfl)
    exact ⟨⟨before, [c], rest, _, hwhole, .stray⟩ :: tiles, ⟨rfl, hadjoin⟩, rfl, rfl⟩

private theorem token_lines_pairwise {tiles : List (Tile source)}
    (h : tiles.Pairwise fun a b => a.before ++ a.text <+: b.before) :
    (tiles.filterMap Tile.token?).Pairwise fun t u => t.line ≤ u.line := by
  rw [List.pairwise_filterMap]
  apply h.imp
  intro a b hab t ht u hu
  rw [(Tile.of_token? ht).2.2, (Tile.of_token? hu).2.2]
  exact lineAfter_le_of_prefix ((List.prefix_append _ _).trans hab)

private theorem fault_lines_pairwise {tiles : List (Tile source)}
    (h : tiles.Pairwise fun a b => a.before ++ a.text <+: b.before) :
    (tiles.filterMap Tile.fault?).Pairwise fun f g => f.line ≤ g.line := by
  rw [List.pairwise_filterMap]
  apply h.imp
  intro a b hab f hf g hg
  calc f.line ≤ lineAfter (a.before ++ a.text) := (Tile.line_of_fault? hf).2
    _ ≤ lineAfter b.before := lineAfter_le_of_prefix hab
    _ ≤ g.line := (Tile.line_of_fault? hg).1

/-- Each token but the last and each fault has a stretch of the source of its own, where it says
that it is. The stretches follow one another, and what else there is are blanks and comments. -/
theorem scan_tiled (source : String) :
    ∃ tiles : List (Tile source),
      (∀ tile ∈ tiles, tile.first < tile.past ∧
        (⟨tile.first⟩ : String.Pos.Raw).IsValid source ∧
        (⟨tile.past⟩ : String.Pos.Raw).IsValid source ∧
        source.toByteArray.extract tile.first tile.past = (String.ofList tile.text).toByteArray) ∧
      tiles.Pairwise (fun a b => a.past ≤ b.first) ∧
      (∀ i < source.utf8ByteSize, ∃ tile ∈ tiles, tile.first ≤ i ∧ i < tile.past) ∧
      (scan source).tokens = tiles.filterMap Tile.token? ++ [Token.atEnd source] ∧
      (scan source).faults = tiles.filterMap Tile.fault? ∧
      (∀ f ∈ (scan source).faults, f.isUnterminated → f.line = (Token.atEnd source).line) ∧
      (scan source).tokens.Pairwise (fun a b => a.line ≤ b.line) ∧
      (scan source).faults.Pairwise (fun a b => a.line ≤ b.line) := by
  obtain ⟨tokens, ht, hm⟩ := munch_scan source
  obtain ⟨tiles, hadjoin, rfl, hfaults⟩ := hm.tiles (List.nil_append source.toList)
  have hfollow := hadjoin.pairwise
  rw [ht, ← hfaults]
  refine ⟨tiles, ?_, hfollow.imp byteLength_le_of_prefix, ?_, rfl, rfl, ?_, ?_, ?_⟩
  · intro tile _
    exact ⟨tile.first_lt_past, tile.first_valid, tile.past_valid, tile.extract_eq⟩
  · intro i hi
    exact hadjoin.exists_mem (Nat.zero_le i) hi
  · intro f hf hopen
    obtain ⟨tile, -, htile⟩ := List.mem_filterMap.mp hf
    exact Tile.line_of_isUnterminated htile hopen
  · refine List.pairwise_append.mpr ⟨token_lines_pairwise hfollow, List.pairwise_singleton _ _, ?_⟩
    intro t hmem last hlast
    obtain ⟨tile, -, htile⟩ := List.mem_filterMap.mp hmem
    obtain rfl := List.mem_singleton.mp hlast
    rw [(Tile.of_token? htile).2.2]
    exact lineAfter_le_of_prefix ⟨_, tile.whole⟩
  · exact fault_lines_pairwise hfollow

end LoxLexis
