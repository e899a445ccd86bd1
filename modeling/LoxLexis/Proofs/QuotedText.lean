import LoxLexis.Text.QuotedForm
import Mathlib.Tactic.IntervalCases

/-! Text between quotes can be read back, whatever follows it. -/
namespace LoxLexis

/-- Where a run of characters of one class ends in the same text. -/
theorem append_cons_inj {p : Char → Bool} {a b text later : List Char} {c : Char}
    (ha : ∀ d ∈ a, p d = true) (hb : ∀ d ∈ b, p d = true) (hc : p c = false)
    (h : a ++ c :: text = b ++ c :: later) : a = b ∧ text = later := by
  have htake := congrArg (List.takeWhile p) h
  have hdrop := congrArg (List.dropWhile p) h
  simp only [List.takeWhile_append_of_pos ha, List.takeWhile_append_of_pos hb,
    List.takeWhile_cons, hc, Bool.false_eq_true, if_false, List.append_nil] at htake
  simp only [List.dropWhile_append_of_pos ha, List.dropWhile_append_of_pos hb,
    List.dropWhile_cons, hc, Bool.false_eq_true, if_false, List.cons.injEq, true_and] at hdrop
  exact ⟨htake, hdrop⟩

namespace Text

def hexValue (digits : List Char) : Nat :=
  digits.foldl (fun n d => 16 * n + if d.isDigit then d.toNat - 48 else d.toNat - 87) 0

/-- The character that a mark behind a backslash stands for. -/
def unmark : Char → Char
  | '0' => '\x00'
  | 't' => '\t'
  | 'r' => '\r'
  | 'n' => '\n'
  | mark => mark

/-- Reads one character as it is written between quotes, and leaves what follows it. -/
def unescape : List Char → Option (Char × List Char)
  | '\\' :: 'u' :: '{' :: text =>
    some (Char.ofNat (hexValue (text.takeWhile (· != '}'))), (text.dropWhile (· != '}')).drop 1)
  | '\\' :: mark :: text => some (unmark mark, text)
  | c :: text => some (c, text)
  | [] => none

private theorem hexValue_digitChar {n : Nat} (h : n < 16) : hexValue [Nat.digitChar n] = n := by
  interval_cases n <;> rfl

private theorem hexValue_concat (digits : List Char) (d : Char) :
    hexValue (digits ++ [d]) = 16 * hexValue digits + hexValue [d] := by
  simp [hexValue]

private theorem hexValue_toDigits (n : Nat) : hexValue (Nat.toDigits 16 n) = n := by
  induction n using Nat.strongRecOn with
  | _ n ih =>
    by_cases hn : n < 16
    · rw [Nat.toDigits_of_lt_base hn, hexValue_digitChar hn]
    · have hlast := hexValue_digitChar (Nat.mod_lt n (by omega : 0 < 16))
      rw [Nat.toDigits_of_base_le (by omega) (by omega), hexValue_concat, ih _ (by omega), hlast]
      omega

theorem exists_digitChar_of_mem_toDigits {n : Nat} {d : Char} (h : d ∈ Nat.toDigits 16 n) :
    ∃ k < 16, d = Nat.digitChar k := by
  induction n using Nat.strongRecOn with
  | _ n ih =>
    by_cases hn : n < 16
    · rw [Nat.toDigits_of_lt_base hn, List.mem_singleton] at h
      exact ⟨n, hn, h⟩
    · rw [Nat.toDigits_of_base_le (by omega) (by omega), List.mem_append, List.mem_singleton] at h
      rcases h with h | h
      · exact ih _ (by omega) h
      · exact ⟨_, Nat.mod_lt n (by omega), h⟩

private theorem bne_brace_of_mem_toDigits {n : Nat} {d : Char} (h : d ∈ Nat.toDigits 16 n) :
    (d != '}') = true := by
  obtain ⟨k, hk, rfl⟩ := exists_digitChar_of_mem_toDigits h
  interval_cases k <;> rfl

private theorem unescape_cons {c : Char} (h : c ≠ '\\') (text : List Char) :
    unescape (c :: text) = some (c, text) := by
  rw [unescape]
  · rintro _ rfl
    exact absurd rfl h
  · rintro _ _ rfl
    exact absurd rfl h

private theorem unescape_hex (c : Char) (text : List Char) :
    unescape ('\\' :: 'u' :: '{' :: (Nat.toDigits 16 c.toNat ++ '}' :: text)) = some (c, text) := by
  have hdigits (d : Char) (hd : d ∈ Nat.toDigits 16 c.toNat) := bne_brace_of_mem_toDigits hd
  simp [unescape, List.takeWhile_append_of_pos hdigits, List.dropWhile_append_of_pos hdigits,
    hexValue_toDigits]

private theorem unescape_escape (c : Char) (text : List Char) :
    unescape (escape c ++ text) = some (c, text) := by
  unfold escape
  split_ifs with hzero htab hreturn hnewline hquote hslash hhex
  · obtain rfl := beq_iff_eq.mp hzero
    rfl
  · obtain rfl := beq_iff_eq.mp htab
    rfl
  · obtain rfl := beq_iff_eq.mp hreturn
    rfl
  · obtain rfl := beq_iff_eq.mp hnewline
    rfl
  · obtain rfl := beq_iff_eq.mp hquote
    rfl
  · obtain rfl := beq_iff_eq.mp hslash
    rfl
  · simpa using unescape_hex c text
  · exact unescape_cons (by simpa using hslash) text

private theorem head?_escape (c : Char) : ∃ d ∈ (escape c).head?, d ≠ '"' := by
  unfold escape
  split_ifs with _ _ _ _ hquote
  case neg => exact ⟨c, rfl, by simpa using hquote⟩
  all_goals exact ⟨'\\', rfl, by decide⟩

private theorem escape_append_ne (c : Char) (text later : List Char) :
    escape c ++ text ≠ '"' :: later := by
  intro h
  obtain ⟨d, hd, hne⟩ := head?_escape c
  obtain ⟨rest, hrest⟩ := List.head?_eq_some_iff.mp hd
  rw [hrest] at h
  exact hne (List.cons.inj h).1

/-- Texts are written between quotes in different ways, and none goes on where another ends. -/
theorem flatMap_escape_inj {a b text later : List Char}
    (h : a.flatMap escape ++ '"' :: text = b.flatMap escape ++ '"' :: later) :
    a = b ∧ text = later := by
  induction a generalizing b with
  | nil =>
    cases b with
    | nil => exact ⟨rfl, (List.cons.inj h).2⟩
    | cons d b =>
      rw [List.flatMap_cons, List.append_assoc] at h
      exact absurd h.symm (escape_append_ne _ _ _)
  | cons c a ih =>
    rw [List.flatMap_cons, List.append_assoc] at h
    cases b with
    | nil => exact absurd h (escape_append_ne _ _ _)
    | cons d b =>
      rw [List.flatMap_cons, List.append_assoc] at h
      have hread := congrArg unescape h
      rw [unescape_escape, unescape_escape] at hread
      obtain ⟨rfl, hrest⟩ := Prod.mk.inj (Option.some.inj hread)
      obtain ⟨rfl, hlater⟩ := ih hrest
      exact ⟨rfl, hlater⟩

theorem quoted_append_inj {s t : String} {text later : List Char}
    (h : (quoted s).toList ++ text = (quoted t).toList ++ later) : s = t ∧ text = later := by
  simp only [quoted, String.toList_ofList, List.cons_append, List.append_assoc, List.cons.injEq,
    true_and, List.nil_append] at h
  obtain ⟨hs, hlater⟩ := flatMap_escape_inj h
  exact ⟨String.toList_inj.mp hs, hlater⟩

end Text
end LoxLexis
