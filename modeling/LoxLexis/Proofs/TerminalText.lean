import LoxLexis.Text.TerminalControls
import Mathlib.Tactic.SplitIfs

/-! Without its controls a text has only what a terminal shows. -/
namespace LoxLexis.Text

/-- Whether a character is shown wherever it does not belong to a control sequence. -/
def isShowable (c : Char) : Bool := (0x20 ≤ c.toNat && c != '\x7f') || isSpaceControl c

private theorem isShowable_of_isSpaceControl {c : Char} (h : isSpaceControl c = true) :
    isShowable c = true := by
  rw [isShowable, h, Bool.or_true]

private theorem isShowable_of_le {c : Char} (h : 0x20 ≤ c.toNat) (hdelete : c.toNat ≠ 0x7f) :
    isShowable c = true := by
  have hc : c ≠ '\x7f' := by
    rintro rfl
    exact hdelete rfl
  simp [isShowable, h, hc]

private theorem isShowable_of_controlStep {rule : SpaceInside} {state : ControlState} {c : Char}
    (h : (controlStep rule state c).2 = true) : isShowable c = true := by
  unfold controlStep at h
  split at h
  · cases h
  split at h
  · cases h
  cases state with
  | outside => exact h
  | escape | escapeDetails | parameters =>
    dsimp only at h
    split at h
    case isTrue hspace => exact isShowable_of_isSpaceControl hspace
    case isFalse => split_ifs at h
  | systemCommand | deviceDetails | deviceData => cases h
  | deviceHeader | deviceParameters =>
    dsimp only at h
    split_ifs at h
  | interrupted sequence =>
    dsimp only at h
    split_ifs at h with hascii hwide
    · rcases Bool.or_eq_true_iff.mp hascii with hspace | hcode
      · exact isShowable_of_isSpaceControl hspace
      · simp only [codeWithin, Bool.and_eq_true, decide_eq_true_eq] at hcode
        exact isShowable_of_le hcode.1 (by omega)
    · exact isShowable_of_le (by omega) (by omega)

private theorem isShowable_of_mem_markShown {rule : SpaceInside} {state : ControlState}
    {text : List Char} {c : Char} (h : (c, true) ∈ markShown rule state text) :
    isShowable c = true := by
  induction text generalizing state with
  | nil => cases h
  | cons d rest ih =>
    rcases List.mem_cons.mp h with hd | hrest
    · obtain ⟨rfl, hstep⟩ := Prod.mk.inj hd
      exact isShowable_of_controlStep hstep.symm
    · exact ih hrest

/-- Nothing is left that a terminal would obey. -/
theorem isShowable_of_mem_withoutControls {rule : SpaceInside} {text : String} {c : Char}
    (h : c ∈ (withoutControls rule text).toList) : isShowable c = true := by
  rw [withoutControls, String.toList_ofList] at h
  obtain ⟨⟨d, shown⟩, hm, rfl⟩ := List.mem_map.mp h
  obtain ⟨hmark, hshown⟩ := List.mem_filter.mp hm
  obtain rfl : shown = true := hshown
  exact isShowable_of_mem_markShown hmark

private theorem controlStep_outside {rule : SpaceInside} {c : Char} (h : isShowable c = true) :
    controlStep rule .outside c = (.outside, true) := by
  have hne (d : Char) (hd : isShowable d = false) : (c == d) = false :=
    beq_false_of_ne fun heq => by rw [heq, hd] at h; cases h
  unfold controlStep
  rw [hne '\x1b' (by decide), hne '\x18' (by decide), hne '\x1a' (by decide)]
  exact congrArg (Prod.mk ControlState.outside) h

private theorem markShown_outside {rule : SpaceInside} {text : List Char}
    (h : ∀ c ∈ text, isShowable c = true) :
    markShown rule .outside text = text.map fun c => (c, true) := by
  induction text with
  | nil => rfl
  | cons c rest ih =>
    rw [markShown, controlStep_outside (h c List.mem_cons_self)]
    exact congrArg _ (ih fun d hd => h d (List.mem_cons_of_mem _ hd))

/-- A text with nothing to obey stays as it is. -/
theorem withoutControls_eq_self {rule : SpaceInside} {text : String}
    (h : ∀ c ∈ text.toList, isShowable c = true) : withoutControls rule text = text := by
  rw [withoutControls, markShown_outside h, List.filter_map, List.map_map]
  have hall : text.toList.filter ((·.2) ∘ fun c : Char => (c, true)) = text.toList :=
    List.filter_eq_self.mpr fun _ _ => rfl
  rw [hall]
  exact (congrArg String.ofList (List.map_id _)).trans String.ofList_toList

theorem withoutControls_withoutControls (rule : SpaceInside) (text : String) :
    withoutControls rule (withoutControls rule text) = withoutControls rule text :=
  withoutControls_eq_self fun _ hc => isShowable_of_mem_withoutControls hc

end LoxLexis.Text
