import LoxLexis.Text.WordWrap
import Mathlib.Data.List.SplitBy
import Mathlib.Tactic.SplitIfs

/-! Breaking a text into lines changes white space only, and nothing on a line that fits. -/
namespace LoxLexis.Text

/-- What is left of a text without its white space. -/
def ink (text : List Char) : List Char := text.filter (!isWhiteSpace ·)

@[simp]
theorem ink_nil : ink [] = [] := rfl

@[simp]
theorem ink_append (first second : List Char) : ink (first ++ second) = ink first ++ ink second :=
  List.filter_append ..

private theorem ink_eq_nil_iff {text : List Char} :
    ink text = [] ↔ text.all isWhiteSpace = true := by
  simp [ink]

theorem ink_newline (text : List Char) : ink ('\n' :: text) = ink text := rfl

def textOf (words : List SpacedWord) : List Char := words.flatMap fun w => w.word ++ w.space

@[simp]
theorem textOf_nil : textOf [] = [] := rfl

@[simp]
theorem textOf_cons (w : SpacedWord) (words : List SpacedWord) :
    textOf (w :: words) = w.word ++ w.space ++ textOf words := rfl

private theorem drop_dropTrailing (piece : List Char) :
    dropTrailing isWhiteSpace piece ++ piece.drop (dropTrailing isWhiteSpace piece).length =
        piece ∧
      ink (piece.drop (dropTrailing isWhiteSpace piece).length) = [] := by
  obtain ⟨space, hpiece, hspace⟩ := exists_dropTrailing_append isWhiteSpace piece
  have hdrop : piece.drop (dropTrailing isWhiteSpace piece).length = space :=
    (congrArg (List.drop (dropTrailing isWhiteSpace piece).length) hpiece).trans List.drop_left
  rw [hdrop]
  exact ⟨hpiece.symm, ink_eq_nil_iff.mpr hspace⟩

/-- A line is its words and the white space after them. -/
theorem textOf_spacedWords (line : List Char) : textOf (spacedWords line) = line := by
  have hpiece (piece : List Char) := (drop_dropTrailing piece).1
  simp only [textOf, spacedWords, List.flatMap_map, hpiece]
  rw [List.flatMap_id']
  exact List.flatten_splitBy _ line

private theorem ink_space_of_mem_spacedWords {line : List Char} {w : SpacedWord}
    (h : w ∈ spacedWords line) : ink w.space = [] := by
  obtain ⟨piece, -, rfl⟩ := List.mem_map.mp h
  exact (drop_dropTrailing piece).2

private theorem ink_layOut {width : Nat} {indent space : List Char} {isFirst : Bool} {column : Nat}
    {words : List SpacedWord} (hindent : ink indent = []) (hspace : ink space = [])
    (hwords : ∀ w ∈ words, ink w.space = []) :
    ink (layOut width indent isFirst column space words).1 = ink (textOf words) := by
  induction words generalizing isFirst column space with
  | nil => simpa [layOut] using hspace
  | cons w rest ih =>
    have hw := hwords w List.mem_cons_self
    have hrest := fun isFirst column => @ih w.space isFirst column hw
      fun v hv => hwords v (List.mem_cons_of_mem _ hv)
    unfold layOut
    dsimp only
    split_ifs
    · simp [hrest, hspace, hw]
    · simp [ink_newline, hrest, hindent, hw]
    · simp [hrest, hspace, hw]

/-- The columns that words need with what stands after each. -/
def columnsOf (words : List SpacedWord) : Nat :=
  words.foldr (fun w total => columns w.word + reservedColumns w.space + total) 0

private theorem layOut_of_fits {width : Nat} {indent space : List Char} {isFirst : Bool}
    {column : Nat} {words : List SpacedWord} (h : column + columnsOf words ≤ width) :
    (layOut width indent isFirst column space words).1 = space ++ textOf words := by
  induction words generalizing isFirst column space with
  | nil => exact (List.append_nil space).symm
  | cons w rest ih =>
    rw [columnsOf, List.foldr_cons] at h
    have hrest := fun isFirst => @ih w.space isFirst
      (column + (columns w.word + reservedColumns w.space)) (by rw [columnsOf]; omega)
    have hword : ¬ width < column + columns w.word := by omega
    unfold layOut
    dsimp only
    rw [if_neg hword]
    split_ifs <;> simp [hrest]

/-- A line that fits stays as it is. -/
theorem wrapLine_of_fits {width : Nat} {state : LineState} {line : List Char}
    (h : state.column + columnsOf (spacedWords line) ≤ width) :
    (wrapLine width state line).1 = line := by
  unfold wrapLine
  dsimp only
  rw [layOut_of_fits h, List.nil_append, textOf_spacedWords]

/-- The indentation of a line laid out is white space. -/
def LineState.IsBlank (state : LineState) : Prop :=
  ∀ indent, state.indent = some indent → ink indent = []

variable {state : LineState}

private theorem isBlank_wrapLine (width : Nat) (h : state.IsBlank) (line : List Char) :
    (wrapLine width state line).2.IsBlank := by
  rintro indent ⟨⟩
  cases hindent : state.indent with
  | some indent => exact h indent hindent
  | none =>
    rw [Option.getD_none]
    split
    case h_1 space rest hwords =>
      exact ink_space_of_mem_spacedWords (hwords ▸ List.mem_cons_self)
    case h_2 => rfl

private theorem ink_wrapLine (width : Nat) (h : state.IsBlank) (line : List Char) :
    ink (wrapLine width state line).1 = ink line := by
  have hindent := isBlank_wrapLine width h line _ rfl
  unfold wrapLine
  dsimp only
  rw [ink_layOut hindent ink_nil fun w hw => ink_space_of_mem_spacedWords hw, textOf_spacedWords]

private theorem ink_foldl {α : Type} (content : α → List Char)
    {step : List Char × LineState → α → List Char × LineState}
    (hstep : ∀ laid piece, laid.2.IsBlank → (step laid piece).2.IsBlank ∧
      ink (step laid piece).1 = ink laid.1 ++ ink (content piece))
    {laid : List Char × LineState} (h : laid.2.IsBlank) (pieces : List α) :
    (pieces.foldl step laid).2.IsBlank ∧
      ink (pieces.foldl step laid).1 = ink laid.1 ++ ink (pieces.flatMap content) := by
  induction pieces generalizing laid with
  | nil => exact ⟨h, by simp⟩
  | cons piece rest ih =>
    obtain ⟨hblank, hink⟩ := hstep laid piece h
    obtain ⟨hlast, hrest⟩ := ih hblank
    rw [hink, List.append_assoc, ← ink_append, ← List.flatMap_cons] at hrest
    exact ⟨hlast, hrest⟩

private theorem ink_wrapLines (width : Nat) (h : state.IsBlank) (piece : List Char) :
    (wrapLines width state piece).2.IsBlank ∧ ink (wrapLines width state piece).1 = ink piece := by
  have hlines := List.flatten_splitBy (fun c _ => c != '\n') piece
  unfold wrapLines
  split
  case h_1 hnil =>
    rw [hnil] at hlines
    exact ⟨h, congrArg ink hlines⟩
  case h_2 line rest hcons =>
    rw [hcons, List.flatten_cons, ← List.flatMap_id] at hlines
    have hfirst : LineState.IsBlank {} := nofun
    refine (ink_foldl id ?_ (isBlank_wrapLine width h line) rest).imp_right fun hrest => ?_
    · intro laid line _
      refine ⟨isBlank_wrapLine width hfirst line, ?_⟩
      rw [ink_append, ink_wrapLine width hfirst]
      rfl
    · rw [hrest, ink_wrapLine width h, ← ink_append, hlines]

/-- Breaking a text leaves everything in place but white space. -/
theorem ink_wrap (width : Nat) (text : List Char) : ink (wrap width text) = ink text := by
  have hpieces := List.flatten_splitBy (fun c next => c.2 == next.2) (markShown .ends .outside text)
  have hfirst : LineState.IsBlank {} := nofun
  unfold wrap
  dsimp only
  refine Eq.trans (And.right (ink_foldl (fun piece => piece.map (·.1)) ?_ hfirst _)) ?_
  · intro laid piece hblank
    split
    · obtain ⟨hnext, hink⟩ := ink_wrapLines width hblank (piece.map (·.1))
      exact ⟨hnext, by rw [ink_append, hink]⟩
    · exact ⟨hblank, ink_append _ _⟩
  · rw [ink_nil, List.nil_append, List.flatMap, ← List.map_flatten, hpieces, map_fst_markShown]

theorem ink_wrapIndented (width indent : Nat) (text : String) :
    ink (wrapIndented width indent text).toList = ink text.toList := by
  rw [← ink_wrap width text.toList, wrapIndented, String.toList_ofList]
  induction wrap width text.toList with
  | nil => rfl
  | cons c rest ih =>
    have hc : ink (if c == '\n' then c :: List.replicate indent ' ' else [c]) = ink [c] := by
      split
      case isTrue hnewline =>
        obtain rfl := beq_iff_eq.mp hnewline
        have hends : isWhiteSpace '\n' = true := by decide
        have hspace : isWhiteSpace ' ' = true := by decide
        exact ink_eq_nil_iff.mpr (by simp [hends, hspace])
      case isFalse => rfl
    rw [List.flatMap_cons, ink_append, hc, ih, ← ink_append, List.singleton_append]

end LoxLexis.Text
