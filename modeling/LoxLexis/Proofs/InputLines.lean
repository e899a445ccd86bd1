import LoxLexis.Text.Utf8Lines
import Mathlib.Data.List.Basic
import Mathlib.Tactic.SplitIfs

/-! Lines of input, split as bytes and as characters. -/
namespace LoxLexis.Text

/-- Pieces that end with the only mark they hold. The last may lack it, but none is empty. -/
inductive InLines {α : Type} (mark : α) : List (List α) → Prop where
  | nil : InLines mark []
  | last {line : List α} : line ≠ [] → mark ∉ line → InLines mark [line]
  | cons {body : List α} {rest : List (List α)} : mark ∉ body → InLines mark rest →
      InLines mark ((body ++ [mark]) :: rest)

section
variable {α : Type} {mark : α} {lines : List (List α)}

theorem InLines.ne_nil (h : InLines mark lines) {line : List α} (hm : line ∈ lines) :
    line ≠ [] := by
  induction h with
  | nil => cases hm
  | last hne => exact List.mem_singleton.mp hm ▸ hne
  | cons _ _ ih =>
    rcases List.mem_cons.mp hm with rfl | hm
    · simp
    · exact ih hm

/-- Lines that others follow end with the mark. -/
theorem InLines.append_cases {first second : List (List α)} (h : InLines mark (first ++ second)) :
    InLines mark second ∧
      (first ≠ [] → second ≠ [] → ∃ body, first.flatten = body ++ [mark]) := by
  induction first with
  | nil => exact ⟨h, fun hne => absurd rfl hne⟩
  | cons line first ih =>
    rw [List.cons_append] at h
    generalize hlater : first ++ second = later at h ih
    cases h with
    | last =>
      obtain ⟨rfl, rfl⟩ := List.append_eq_nil_iff.mp hlater
      exact ⟨.nil, fun _ hne => absurd rfl hne⟩
    | @cons body _ _ hrest =>
      obtain ⟨hsecond, hend⟩ := ih hrest
      refine ⟨hsecond, fun _ hne => ?_⟩
      by_cases hfirst : first = []
      · exact ⟨body, by rw [hfirst, List.flatten_singleton]⟩
      · obtain ⟨more, hmore⟩ := hend hfirst hne
        exact ⟨body ++ [mark] ++ more, by rw [List.flatten_cons, hmore, List.append_assoc _ more]⟩

/-- Every text is made of such lines. -/
theorem exists_inLines (mark : α) (text : List α) :
    ∃ lines, lines.flatten = text ∧ InLines mark lines := by
  induction text with
  | nil => exact ⟨[], rfl, .nil⟩
  | cons c text ih =>
    obtain ⟨lines, rfl, h⟩ := ih
    by_cases hc : mark = c
    · subst hc
      exact ⟨([] ++ [mark]) :: lines, rfl, .cons List.not_mem_nil h⟩
    · cases h with
      | nil => exact ⟨[[c]], rfl, .last (List.cons_ne_nil _ _) (by simpa using hc)⟩
      | @last line hne hm =>
        exact ⟨[c :: line], rfl, .last (List.cons_ne_nil _ _) (by simp [hc, hm])⟩
      | @cons body rest hm hrest =>
        exact ⟨((c :: body) ++ [mark]) :: rest, rfl, .cons (by simp [hc, hm]) hrest⟩

end

private theorem splitLines_cons (byte : UInt8) (rest : List UInt8) :
    splitLines (byte :: rest) = prependByte byte (splitLines rest) := rfl

private theorem splitLines_newline (rest : List UInt8) :
    splitLines (newlineByte :: rest) = [newlineByte] :: splitLines rest := by
  rw [splitLines_cons]
  cases splitLines rest <;> simp [prependByte]

private theorem splitLines_append {body rest line : List UInt8} {lines : List (List UInt8)}
    (hbody : newlineByte ∉ body) (hrest : splitLines rest = line :: lines) :
    splitLines (body ++ rest) = (body ++ line) :: lines := by
  induction body with
  | nil => exact hrest
  | cons byte body ih =>
    obtain ⟨hbyte, hbody⟩ := List.ne_and_not_mem_of_not_mem_cons hbody
    rw [List.cons_append, splitLines_cons, ih hbody, prependByte, if_neg hbyte.symm]
    rfl

private theorem splitLines_flatten {lines : List (List UInt8)} (h : InLines newlineByte lines) :
    splitLines lines.flatten = lines := by
  induction h with
  | nil => rfl
  | @last line hne hm =>
    obtain ⟨init, byte, rfl⟩ := (List.eq_nil_or_concat' line).resolve_left hne
    rw [List.mem_append, not_or] at hm
    rw [List.flatten_singleton]
    exact splitLines_append hm.1 rfl
  | @cons body rest hm _ ih =>
    rw [List.flatten_cons, List.append_assoc, List.singleton_append]
    rw [splitLines_append hm (splitLines_newline _), ih]

/-- Input is split in the one way that makes lines of it. -/
theorem splitLines_eq_iff {bytes : List UInt8} {lines : List (List UInt8)} :
    splitLines bytes = lines ↔ lines.flatten = bytes ∧ InLines newlineByte lines := by
  constructor
  · rintro rfl
    obtain ⟨lines, rfl, h⟩ := exists_inLines newlineByte bytes
    rw [splitLines_flatten h]
    exact ⟨rfl, h⟩
  · rintro ⟨rfl, h⟩
    exact splitLines_flatten h

def encodeUtf8 (text : String) : List UInt8 := text.toByteArray.data.toList

theorem decodeUtf8?_encodeUtf8 (text : String) : decodeUtf8? (encodeUtf8 text) = some text := by
  have h : (⟨text.toByteArray.data.toList.toArray⟩ : ByteArray) = text.toByteArray := by simp
  rw [decodeUtf8?, encodeUtf8, h, String.fromUTF8?, dif_pos text.isValidUTF8]
  rfl

private theorem decodeUtf8?_eq_some_iff {bytes : List UInt8} {text : String} :
    decodeUtf8? bytes = some text ↔ encodeUtf8 text = bytes := by
  constructor
  · intro h
    rw [decodeUtf8?, String.fromUTF8?] at h
    split at h
    · obtain rfl := Option.some.inj h
      rfl
    · cases h
  · rintro rfl
    exact decodeUtf8?_encodeUtf8 text

/-- Bytes that encode no text are not decoded. -/
theorem decodeUtf8?_eq_none_iff {bytes : List UInt8} :
    decodeUtf8? bytes = none ↔ ∀ text, encodeUtf8 text ≠ bytes := by
  rw [Option.eq_none_iff_forall_ne_some]
  exact forall_congr' fun text => not_congr decodeUtf8?_eq_some_iff

theorem ne_empty_of_decodeUtf8? {bytes : List UInt8} {text : String}
    (h : decodeUtf8? bytes = some text) (hne : bytes ≠ []) : text ≠ "" := by
  rintro rfl
  exact hne (decodeUtf8?_eq_some_iff.mp h).symm

private theorem encodeUtf8_eq (text : String) :
    encodeUtf8 text = text.toList.flatMap String.utf8EncodeChar := by
  have h : (String.ofList text.toList).toByteArray = text.toList.utf8Encode := rfl
  rw [String.ofList_toList] at h
  rw [encodeUtf8, h, List.utf8Encode]
  simp

private theorem newlineByte_eq_ofNat_iff {n : Nat} :
    newlineByte = UInt8.ofNat n ↔ n % 256 = 10 := by
  rw [← UInt8.toNat_inj, eq_comm]
  rfl

private theorem newlineByte_mem_utf8EncodeChar {c : Char} :
    newlineByte ∈ String.utf8EncodeChar c ↔ c = '\n' := by
  have hc : c = '\n' ↔ c.val.toNat = 10 := by
    rw [← Char.val_inj, ← UInt32.toNat_inj]
    rfl
  rw [hc, String.utf8EncodeChar]
  generalize c.val.toNat = code
  split_ifs <;> simp only [List.mem_cons, List.not_mem_nil, or_false, newlineByte_eq_ofNat_iff] <;>
    omega

private theorem newlineByte_mem_encodeUtf8 {text : String} :
    newlineByte ∈ encodeUtf8 text ↔ '\n' ∈ text.toList := by
  simp [encodeUtf8_eq, List.mem_flatMap, newlineByte_mem_utf8EncodeChar]

private theorem encodeUtf8_append (first second : String) :
    encodeUtf8 (first ++ second) = encodeUtf8 first ++ encodeUtf8 second := by
  simp [encodeUtf8]

private theorem encodeUtf8_join (lines : List String) :
    encodeUtf8 (String.join lines) = (lines.map encodeUtf8).flatten := by
  induction lines with
  | nil => rfl
  | cons line lines ih => rw [String.join_cons, encodeUtf8_append, ih]; rfl

/-- Lines of characters are encoded as lines of bytes. -/
theorem InLines.encodeUtf8 {lines : List String} (h : InLines '\n' (lines.map String.toList)) :
    InLines newlineByte (lines.map encodeUtf8) := by
  generalize htexts : lines.map String.toList = texts at h
  induction h generalizing lines with
  | nil =>
    obtain rfl := List.map_eq_nil_iff.mp htexts
    exact .nil
  | @last text hne hm =>
    obtain ⟨line, rfl, rfl⟩ := List.map_eq_singleton_iff.mp htexts
    refine .last ?_ (mt newlineByte_mem_encodeUtf8.mp hm)
    rw [encodeUtf8_eq, Ne, List.flatMap_eq_nil_iff]
    intro hall
    obtain ⟨c, text, hc⟩ := List.exists_cons_of_ne_nil hne
    exact String.utf8EncodeChar_ne_nil (hall c (hc ▸ List.mem_cons_self))
  | @cons body rest hm _ ih =>
    obtain ⟨line, lines, rfl, hline, hlines⟩ := List.map_eq_cons_iff.mp htexts
    have hbytes : Text.encodeUtf8 line =
        Text.encodeUtf8 (String.ofList body) ++ [newlineByte] := by
      rw [encodeUtf8_eq, hline, List.flatMap_append, encodeUtf8_eq, String.toList_ofList]
      rfl
    rw [List.map_cons, hbytes]
    refine .cons ?_ (ih hlines)
    rwa [newlineByte_mem_encodeUtf8, String.toList_ofList]

/-- The lines of an encoded text are its lines, encoded. -/
theorem decode_splitLines_encodeUtf8 {lines : List String}
    (h : InLines '\n' (lines.map String.toList)) :
    (splitLines (encodeUtf8 (String.join lines))).map decodeUtf8? = lines.map some := by
  rw [encodeUtf8_join, splitLines_flatten h.encodeUtf8, List.map_map]
  exact List.map_congr_left fun line _ => decodeUtf8?_encodeUtf8 line

/-- Every text is made of lines. -/
theorem exists_lines (text : String) :
    ∃ lines : List String, String.join lines = text ∧ InLines '\n' (lines.map String.toList) := by
  obtain ⟨texts, htexts, h⟩ := exists_inLines '\n' text.toList
  refine ⟨texts.map String.ofList, ?_, ?_⟩
  · rw [← String.toList_inj, String.toList_join, List.flatMap_map, ← htexts]
    simp [List.flatMap_id']
  · simpa using h

theorem exists_join_eq_append_newline {first second : List String}
    (h : InLines '\n' ((first ++ second).map String.toList)) (hfirst : first ≠ [])
    (hsecond : second ≠ []) : ∃ body, String.join first = body ++ "\n" := by
  rw [List.map_append] at h
  obtain ⟨body, hbody⟩ := h.append_cases.2 (by simpa using hfirst) (by simpa using hsecond)
  refine ⟨String.ofList body, ?_⟩
  rw [← String.toList_inj, String.toList_join, List.flatMap_def, hbody]
  simp

end LoxLexis.Text
