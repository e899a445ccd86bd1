import Mathlib.Data.List.Basic

/-! A list in groups, each the shortest run that does not stay open. -/
namespace LoxLexis
variable {α : Type} {isOpen : List α → Prop}

/-- Wherever the run is broken off, what there is of it is open. -/
def StaysOpen (isOpen : List α → Prop) (run : List α) : Prop :=
  ∀ start, start ≠ [] → start <+: run → isOpen start

/-- The run is open up to its last item, which closes it. -/
structure ShortestClosed (isOpen : List α → Prop) (group : List α) : Prop where
  ne_nil : group ≠ []
  held_open : StaysOpen isOpen group.dropLast
  closed : ¬ isOpen group

/-- All items in groups one after another. What is left at the end stays open. -/
@[ext] structure Grouping (isOpen : List α → Prop) (items : List α) where
  closed : List (List α)
  left : List α
  whole : closed.flatten ++ left = items
  shortest : ∀ group ∈ closed, ShortestClosed isOpen group
  left_open : StaysOpen isOpen left

theorem staysOpen_nil : StaysOpen isOpen [] :=
  fun _ hne hp => absurd (List.prefix_nil.mp hp) hne

theorem StaysOpen.concat {run : List α} {last : α} (h : StaysOpen isOpen run)
    (hlast : isOpen (run ++ [last])) : StaysOpen isOpen (run ++ [last]) := by
  intro start hne hp
  rcases List.prefix_concat_iff.mp hp with rfl | hp
  · exact hlast
  · exact h start hne hp

private theorem ShortestClosed.eq_of_starts {first second whole : List α}
    (h : ShortestClosed isOpen first) (h' : ShortestClosed isOpen second)
    (hp : first <+: whole) (hp' : second <+: whole) : first = second := by
  have hshorter {a b : List α} (ha : ShortestClosed isOpen a) (hb : ShortestClosed isOpen b)
      (hab : a <+: b) : a = b := by
    rw [← List.dropLast_append_getLast hb.ne_nil] at hab ⊢
    rcases List.prefix_concat_iff.mp hab with heq | hab
    · exact heq
    · exact absurd (hb.held_open a ha.ne_nil hab) ha.closed
  rcases List.prefix_or_prefix_of_prefix hp hp' with hab | hba
  · exact hshorter h h' hab
  · exact (hshorter h' h hba).symm

namespace Grouping
variable {items : List α}

/-- All groups, with what is left at the end as the last of them. -/
def groups (g : Grouping isOpen items) : List (List α) :=
  g.closed ++ if g.left = [] then [] else [g.left]

theorem closed_or_whole_of_isPrefix (g : Grouping isOpen items) {done : List (List α)}
    (h : done <+: g.groups) : done <+: g.closed ∨ done.flatten = items := by
  rw [groups] at h
  by_cases hleft : g.left = []
  · rw [if_pos hleft, List.append_nil] at h
    exact Or.inl h
  · rw [if_neg hleft, List.prefix_concat_iff] at h
    refine h.symm.imp id fun hdone => ?_
    rw [hdone, List.flatten_append, List.flatten_singleton, g.whole]

private theorem exists_of_staysOpen {held : List α} (h : StaysOpen isOpen held) (items : List α) :
    Nonempty (Grouping isOpen (held ++ items)) := by
  induction items generalizing held with
  | nil =>
    exact ⟨⟨[], held, by simp, by simp, h⟩⟩
  | cons item items ih =>
    rw [List.append_cons]
    by_cases hopen : isOpen (held ++ [item])
    · exact ih (h.concat hopen)
    · obtain ⟨g⟩ := ih staysOpen_nil
      have hgroup : ShortestClosed isOpen (held ++ [item]) :=
        ⟨by simp, by rwa [List.dropLast_concat], hopen⟩
      refine ⟨⟨(held ++ [item]) :: g.closed, g.left, ?_, ?_, g.left_open⟩⟩
      · rw [List.flatten_cons, List.append_assoc, g.whole, List.nil_append]
      · exact List.forall_mem_cons.mpr ⟨hgroup, g.shortest⟩

theorem nonempty (isOpen : List α → Prop) (items : List α) : Nonempty (Grouping isOpen items) :=
  exists_of_staysOpen staysOpen_nil items

private theorem closed_eq {closed closed' : List (List α)} {left left' : List α}
    (h : ∀ group ∈ closed, ShortestClosed isOpen group) (hleft : StaysOpen isOpen left)
    (h' : ∀ group ∈ closed', ShortestClosed isOpen group) (hleft' : StaysOpen isOpen left')
    (hwhole : closed.flatten ++ left = closed'.flatten ++ left') :
    closed = closed' ∧ left = left' := by
  induction closed generalizing closed' with
  | nil =>
    cases closed' with
    | nil => exact ⟨rfl, hwhole⟩
    | cons group rest =>
      have hgroup := h' group List.mem_cons_self
      have hp : group <+: left := ⟨rest.flatten ++ left', by simpa using hwhole.symm⟩
      exact absurd (hleft group hgroup.ne_nil hp) hgroup.closed
  | cons group rest ih =>
    have hgroup := h group List.mem_cons_self
    have hp : group <+: (group :: rest).flatten ++ left := ⟨rest.flatten ++ left, by simp⟩
    cases closed' with
    | nil =>
      rw [hwhole] at hp
      exact absurd (hleft' group hgroup.ne_nil hp) hgroup.closed
    | cons group' rest' =>
      have hp' : group' <+: (group :: rest).flatten ++ left :=
        ⟨rest'.flatten ++ left', by rw [hwhole, List.flatten_cons, List.append_assoc]⟩
      obtain rfl := hgroup.eq_of_starts (h' group' List.mem_cons_self) hp hp'
      simp only [List.flatten_cons, List.append_assoc, List.append_cancel_left_eq] at hwhole
      obtain ⟨rfl, rfl⟩ := ih (fun g hg => h g (List.mem_cons_of_mem _ hg))
        (fun g hg => h' g (List.mem_cons_of_mem _ hg)) hwhole
      exact ⟨rfl, rfl⟩

/-- There is only one way to group the items. -/
theorem unique (g g' : Grouping isOpen items) : g = g' := by
  obtain ⟨hclosed, hleft⟩ := closed_eq g.shortest g.left_open g'.shortest g'.left_open
    (g.whole.trans g'.whole.symm)
  exact Grouping.ext hclosed hleft

end Grouping
end LoxLexis
