import LoxLexis.CommandLine.Similarity
import Mathlib.Data.List.Perm.Basic

/-! Of two words just as many characters are matched, and they are the same. -/
namespace LoxLexis.CommandLine

private def matched (marked : List MarkedCharacter) : List Char :=
  (marked.filter (·.isMatched)).map (·.character)

private theorem perm_matched_of_markFirst {c : Char} {low high : Nat}
    {before after : List MarkedCharacter} (h : markFirst c low high before = some after) :
    (matched after).Perm (c :: matched before) := by
  induction before generalizing after with
  | nil => cases h
  | cons m rest ih =>
    unfold markFirst at h
    split at h
    case isTrue hfree =>
      cases h
      simp only [Bool.and_eq_true, beq_iff_eq, Bool.not_eq_true'] at hfree
      obtain ⟨⟨⟨rfl, hfree⟩, -⟩, -⟩ := hfree
      simp [matched, hfree]
    case isFalse =>
      obtain ⟨later, hlater, rfl⟩ := Option.map_eq_some_iff.mp h
      have hrest := ih hlater
      cases hm : m.isMatched with
      | true =>
        simp only [matched, List.filter_cons, hm, if_true, List.map_cons]
        exact (hrest.cons m.character).trans (List.Perm.swap _ _ _)
      | false => simpa [matched, hm] using hrest

private theorem map_character_of_markFirst {c : Char} {low high : Nat}
    {before after : List MarkedCharacter} (h : markFirst c low high before = some after) :
    after.map (·.character) = before.map (·.character) := by
  induction before generalizing after with
  | nil => cases h
  | cons m rest ih =>
    unfold markFirst at h
    split at h
    case isTrue =>
      cases h
      rfl
    case isFalse =>
      obtain ⟨later, hlater, rfl⟩ := Option.map_eq_some_iff.mp h
      rw [List.map_cons, List.map_cons, ih hlater]

/-- A character finds a free one to match, or nothing changes. -/
private def Steps (state : List Char × List MarkedCharacter) (x : Char × Nat)
    (next : List Char × List MarkedCharacter) : Prop :=
  next = state ∨ ∃ low high after,
    markFirst x.1 low high state.2 = some after ∧ next = (x.1 :: state.1, after)

private theorem foldl_steps
    {step : List Char × List MarkedCharacter → Char × Nat → List Char × List MarkedCharacter}
    (hstep : ∀ state x, Steps state x (step state x))
    {state : List Char × List MarkedCharacter} (h : state.1.Perm (matched state.2))
    (l : List (Char × Nat)) :
    (l.foldl step state).1.Perm (matched (l.foldl step state).2) ∧
      (l.foldl step state).2.map (·.character) = state.2.map (·.character) ∧
      (l.foldl step state).1.reverse.Sublist (state.1.reverse ++ l.map (·.1)) := by
  induction l generalizing state with
  | nil => exact ⟨h, rfl, by simp⟩
  | cons x rest ih =>
    rw [List.foldl_cons, List.map_cons]
    rcases hstep state x with hsame | ⟨low, high, after, hmark, hnext⟩
    · rw [hsame]
      obtain ⟨hperm, hcharacters, hfound⟩ := ih h
      exact ⟨hperm, hcharacters, hfound.trans ((List.sublist_cons_self _ _).append_left _)⟩
    · rw [hnext]
      have hperm := (h.cons x.1).trans (perm_matched_of_markFirst hmark).symm
      obtain ⟨hperm, hcharacters, hfound⟩ := @ih (x.1 :: state.1, after) hperm
      rw [map_character_of_markFirst hmark] at hcharacters
      exact ⟨hperm, hcharacters, by simpa using hfound⟩

private theorem foldl_steps_from_free
    {step : List Char × List MarkedCharacter → Char × Nat → List Char × List MarkedCharacter}
    {free : List MarkedCharacter} {word other : List Char}
    (hstep : ∀ state x, Steps state x (step state x)) (hfree : matched free = [])
    (hother : free.map (·.character) = other) :
    (word.zipIdx.foldl step ([], free)).1.reverse.Sublist word ∧
      (matched (word.zipIdx.foldl step ([], free)).2).Sublist other ∧
      (word.zipIdx.foldl step ([], free)).1.reverse.Perm
        (matched (word.zipIdx.foldl step ([], free)).2) := by
  have hnone : [].Perm (matched free) := by rw [hfree]
  obtain ⟨hperm, hcharacters, hfound⟩ :=
    @foldl_steps step hstep ([], free) hnone word.zipIdx
  refine ⟨by simpa using hfound, ?_, (List.reverse_perm _).trans hperm⟩
  rw [← hother, ← hcharacters]
  exact List.filter_sublist.map _

/-- Of each word the characters are taken out as they stand there. They are the same of both, but
need not be in the same order. -/
theorem matchedCharacters_spec (reach : Nat) (word other : List Char) :
    (matchedCharacters reach word other).1.Sublist word ∧
      (matchedCharacters reach word other).2.Sublist other ∧
      (matchedCharacters reach word other).1.Perm (matchedCharacters reach word other).2 := by
  refine foldl_steps_from_free (fun state x => ?_) ?_ ?_
  · dsimp only
    split
    case h_1 after hmark => exact Or.inr ⟨_, _, after, hmark, rfl⟩
    case h_2 => exact Or.inl rfl
  · rw [matched, List.map_eq_nil_iff, List.filter_eq_nil_iff]
    intro m hm
    obtain ⟨_, -, rfl⟩ := List.mem_map.mp hm
    exact Bool.false_ne_true
  · simp [Function.comp_def]

end LoxLexis.CommandLine
