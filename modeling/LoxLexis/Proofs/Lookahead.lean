import LoxLexis.Proofs.LexemeEnds
import LoxLexis.Proofs.ScanSteps

/-! How far a scan looks ahead: the steps that a longer text leaves as they are. -/
namespace LoxLexis

/-- Text behind the end adds no character to a lexeme that ends before it. Only a whole number and
a point at the end can be gone on from, by a digit. -/
theorem IsLongest.append_iff {k : Category} {piece rest : List Char} (h : IsLongest k piece rest)
    (hrest : rest ≠ []) (more : List Char) :
    IsLongest k piece (rest ++ more) ↔
      (k = .number → '.' ∉ piece → rest = ['.'] → ∀ d ∈ more.head?, d.isDigit = false) := by
  obtain ⟨c, rest, rfl⟩ := List.exists_cons_of_ne_nil hrest
  constructor
  · rintro hlonger rfl hwhole hpoint d hd
    obtain ⟨more, rfl⟩ := List.head?_eq_some_iff.mp hd
    cases h.spells with
    | integer hw => exact ((isLongest_integer_iff hw).mp hlonger).2 d more (by rw [hpoint]; rfl)
    | decimal => simp at hwhole
  · intro hdigit
    refine h.of_ends (fun c hc => Or.inr hc) (fun hk c hc => ?_) fun hk hwhole d later hd hdd => ?_
    · subst hk
      exact h.comment_end c hc
    · match rest with
      | [] =>
        obtain ⟨rfl, rfl⟩ : c = '.' ∧ more = d :: later := by simpa using hd
        rw [hdigit hk hwhole rfl d rfl] at hdd
        cases hdd
      | e :: rest =>
        obtain ⟨rfl, rfl, -⟩ : c = '.' ∧ e = d ∧ _ := by simpa using hd
        exact ⟨rest, rfl⟩

namespace Lexeme

/-- A whole number, with nothing but a point behind it. -/
def MeetsPoint (l : Lexeme) (rest : List Char) : Prop :=
  l.category = .number ∧ '.' ∉ l.chars ∧ rest = ['.']

private theorem first_eq_iff {l : Lexeme} {rest : List Char} :
    first l.head (l.tail ++ rest) = (l, rest) ↔ (first l.head (l.tail ++ rest)).1 = l := by
  refine ⟨fun h => by rw [h], fun h => Prod.ext h ?_⟩
  have happ := first_append l.head (l.tail ++ rest)
  rw [h] at happ
  exact List.append_cancel_left happ

private theorem not_meetsPoint_append (l : Lexeme) {front rest : List Char} (hfront : front ≠ [])
    (hrest : rest ≠ []) : ¬ l.MeetsPoint (front ++ rest) := by
  rintro ⟨-, -, hpoint⟩
  have hlength := congrArg List.length hpoint
  have := List.length_pos_of_ne_nil hfront
  have := List.length_pos_of_ne_nil hrest
  simp only [List.length_append, List.length_singleton] at hlength
  omega

/-- A lexeme that ends before the text does is cut as it is from a longer text, unless it is a whole
number that meets a point and a digit is added. -/
theorem first_append_iff {l : Lexeme} {rest : List Char}
    (h : first l.head (l.tail ++ rest) = (l, rest)) (hrest : rest ≠ []) (more : List Char) :
    first l.head (l.tail ++ (rest ++ more)) = (l, rest ++ more) ↔
      (l.MeetsPoint rest → ∀ d ∈ more.head?, d.isDigit = false) := by
  rcases first_eq_cases h with hl | ⟨-, hnil⟩ | ⟨hk, hstray⟩
  · rw [MeetsPoint, and_imp, and_imp, ← hl.append_iff hrest]
    exact hl.spells.isLongest_iff_first.symm
  · exact absurd hnil hrest
  · refine iff_of_true (hstray _) ?_
    rintro ⟨hnumber, -⟩
    rw [hk] at hnumber
    cases hnumber

/-- The first lexemes of a text that goes on behind them are those of every longer text, but for
the last of them where it meets a point and a digit is added. -/
theorem isPrefix_sequence_append_iff {done later : List Lexeme}
    (h : sequence ((done ++ later).flatMap chars) = done ++ later) (hlater : later ≠ [])
    (more : List Char) :
    done <+: sequence ((done ++ later).flatMap chars ++ more) ↔
      ∀ l ∈ done.getLast?, l.MeetsPoint (later.flatMap chars) →
        ∀ d ∈ more.head?, d.isDigit = false := by
  induction done with
  | nil => simp
  | cons l done ih =>
    have hne : (done ++ later).flatMap chars ≠ [] :=
      flatMap_chars_ne_nil (List.append_ne_nil_of_right_ne_nil _ hlater)
    rw [List.cons_append] at h
    have hfirst := first_append_iff (first_of_sequence_eq h) hne more
    have hrest := ih (sequence_of_cons h)
    have htext : (l :: done ++ later).flatMap chars ++ more =
        l.head :: (l.tail ++ ((done ++ later).flatMap chars ++ more)) := by simp [chars]
    rw [htext, sequence_cons, List.cons_prefix_cons]
    cases done with
    | nil =>
      rw [eq_comm, ← first_eq_iff, hfirst]
      simp
    | cons next done =>
      have hmeets := l.not_meetsPoint_append (flatMap_chars_ne_nil (List.cons_ne_nil next done))
        (flatMap_chars_ne_nil hlater)
      rw [← List.flatMap_append] at hmeets
      rw [hfirst.mpr fun hm => absurd hm hmeets, and_iff_right rfl, hrest, List.getLast?_cons_cons]

end Lexeme

private theorem map_lexeme_stepsFrom (start line : Nat) (lexemes : List Lexeme) :
    (stepsFrom start line lexemes).map Step.lexeme = lexemes := by
  induction lexemes generalizing start line with
  | nil => rfl
  | cons l rest ih => rw [stepsFrom, List.map_cons, ih]

private theorem stepsFrom_isPrefix_iff {start line : Nat} {done lexemes : List Lexeme} :
    stepsFrom start line done <+: stepsFrom start line lexemes ↔ done <+: lexemes := by
  constructor
  · intro h
    simpa only [map_lexeme_stepsFrom] using h.map Step.lexeme
  · rintro ⟨later, rfl⟩
    rw [stepsFrom_append]
    exact List.prefix_append _ _

private theorem stepsFrom_concat (start line : Nat) (done : List Lexeme) (l : Lexeme) :
    stepsFrom start line (done ++ [l]) = stepsFrom start line done ++
      [⟨start + byteLength (done.flatMap Lexeme.chars),
        line + (done.flatMap Lexeme.chars).count '\n', l⟩] :=
  stepsFrom_append start line done [l]

def earlySteps (source : String) : List Step :=
  (steps source).filter fun s => s.past < source.utf8ByteSize

/-- A whole number directly before a point, which is the last character of the source. -/
def Step.MeetsLastPoint (source : String) (s : Step) : Prop :=
  s.lexeme.category = .number ∧ '.' ∉ s.lexeme.chars ∧
    s.past + 1 = source.utf8ByteSize ∧ source.toList.getLast? = some '.'

private theorem earlySteps_eq {source : String} {done : List Lexeme} {last : Lexeme}
    (h : Lexeme.sequence source.toList = done ++ [last]) :
    earlySteps source = stepsFrom 0 1 done := by
  have hsize : source.utf8ByteSize = byteLength (done.flatMap Lexeme.chars) +
      byteLength last.chars := by
    rw [← byteLength_toList, ← Lexeme.flatMap_chars_sequence source.toList, h, List.flatMap_append,
      byteLength_append, List.flatMap_singleton]
  have hlast := byteLength_chars_pos last
  rw [earlySteps, steps, h, stepsFrom_append, List.filter_append, hsize]
  rw [List.filter_eq_self.mpr, List.filter_eq_nil_iff.mpr, List.append_nil]
  · intro s hs
    obtain rfl := List.mem_singleton.mp hs
    simp [Step.past]
  · intro s hs
    have hpast := (mem_stepsFrom hs).2.2
    simp only [decide_eq_true_eq]
    omega

private theorem eq_point_iff {text : List Char} :
    text = ['.'] ↔ byteLength text = 1 ∧ text.getLast? = some '.' := by
  constructor
  · rintro rfl
    exact ⟨rfl, rfl⟩
  · rintro ⟨hlength, hlast⟩
    obtain ⟨front, rfl⟩ := List.getLast?_eq_some_iff.mp hlast
    by_cases hfront : front = []
    · rw [hfront, List.nil_append]
    · have hpos := byteLength_pos hfront
      rw [byteLength_append] at hlength
      have hone : byteLength ['.'] = 1 := rfl
      omega

private theorem Step.meetsLastPoint_iff {source : String} {front : List Char} {line : Nat}
    {l : Lexeme}
    {rest : List Char} (h : source.toList = front ++ (l.chars ++ rest)) (hrest : rest ≠ []) :
    Step.MeetsLastPoint source ⟨byteLength front, line, l⟩ ↔ l.MeetsPoint rest := by
  have hsize : source.utf8ByteSize = byteLength front + (byteLength l.chars + byteLength rest) := by
    rw [← byteLength_toList, h, byteLength_append, byteLength_append]
  have hlast : source.toList.getLast? = rest.getLast? := by
    rw [h, ← List.append_assoc, List.getLast?_append_of_ne_nil _ hrest]
  rw [MeetsLastPoint, Lexeme.MeetsPoint, eq_point_iff, hsize, hlast, past]
  refine and_congr_right fun _ => and_congr_right fun _ => and_congr_left fun _ => ?_
  change byteLength front + byteLength l.chars + 1 = _ ↔ _
  omega

private theorem stepsFrom_isPrefix_steps_iff {source : String} {done later : List Lexeme}
    (h : Lexeme.sequence source.toList = done ++ later) (hlater : later ≠ []) (more : String) :
    stepsFrom 0 1 done <+: steps (source ++ more) ↔
      ∀ l ∈ done.getLast?, l.MeetsPoint (later.flatMap Lexeme.chars) →
        ∀ d ∈ more.toList.head?, d.isDigit = false := by
  have hchars := Lexeme.flatMap_chars_sequence source.toList
  rw [h] at hchars
  rw [← hchars] at h
  rw [steps, stepsFrom_isPrefix_iff, String.toList_append, ← hchars]
  exact Lexeme.isPrefix_sequence_append_iff h hlater more.toList

/-- The steps that end before the source does are the first steps of every longer source as well,
with their offsets and their lines. The one that may not be is the last of them, and it is not if
and only if it is a whole number before a final point and a digit comes behind the point. -/
theorem earlySteps_isPrefix (source more : String) :
    earlySteps source <+: steps source ∧
      (earlySteps source).dropLast <+: steps (source ++ more) ∧
      (earlySteps source <+: steps (source ++ more) ↔
        ∀ s ∈ (earlySteps source).getLast?, s.MeetsLastPoint source →
          ∀ d ∈ more.toList.head?, d.isDigit = false) := by
  rcases List.eq_nil_or_concat (Lexeme.sequence source.toList) with hnil | ⟨done, last, h⟩
  · simp [earlySteps, steps, hnil, stepsFrom]
  rw [List.concat_eq_append] at h
  have hall : stepsFrom 0 1 done <+: steps source := by
    rw [steps, h, stepsFrom_isPrefix_iff]
    exact List.prefix_append _ _
  have hcommon := stepsFrom_isPrefix_steps_iff h (List.cons_ne_nil _ _) more
  rw [earlySteps_eq h]
  rcases List.eq_nil_or_concat done with rfl | ⟨front, l, rfl⟩
  · simp [stepsFrom]
  rw [List.concat_eq_append] at *
  have hne {m : Lexeme} : [m].flatMap Lexeme.chars ≠ [] :=
    Lexeme.flatMap_chars_ne_nil (List.cons_ne_nil m [])
  have hfront : Lexeme.sequence source.toList = front ++ ([l] ++ [last]) := by
    rw [h, List.append_assoc]
  have htext : source.toList =
      front.flatMap Lexeme.chars ++ (l.chars ++ [last].flatMap Lexeme.chars) := by
    rw [← Lexeme.flatMap_chars_sequence source.toList, hfront, List.flatMap_append,
      List.flatMap_append, List.flatMap_singleton]
  refine ⟨hall, ?_, ?_⟩
  · rw [stepsFrom_concat, List.dropLast_concat]
    refine (stepsFrom_isPrefix_steps_iff hfront (List.cons_ne_nil _ _) more).mpr fun m _ hm => ?_
    rw [List.flatMap_append] at hm
    exact absurd hm (m.not_meetsPoint_append hne hne)
  · rw [hcommon, stepsFrom_concat, Nat.zero_add]
    simp only [List.getLast?_concat, Option.mem_some_iff, forall_eq',
      Step.meetsLastPoint_iff htext hne]

/-- With a digit behind it the point belongs to the number. -/
example : ¬ earlySteps "1." <+: steps ("1." ++ "5") := by decide +kernel

end LoxLexis
