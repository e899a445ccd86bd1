import LoxLexis.Program
import Mathlib.Data.List.TakeWhile

/-!
What one argument does to a reading of the command line, and what a check of it leaves, where
nothing is wrong.
-/
namespace LoxLexis.CommandLine

/-- An argument that is no option. -/
def IsPlain (argument : String) : Prop := ∀ c rest, argument.toList ≠ '-' :: c :: rest

theorem bind_eq_ok_iff {α β : Type} {first : Except Stop α} {next : α → Except Stop β}
    {result : β} : first >>= next = .ok result ↔ ∃ a, first = .ok a ∧ next a = .ok result := by
  cases first <;> simp [bind, Except.bind]

theorem layoutOf_eq_ok_iff {value : String} {l : Layout} :
    layoutOf value = .ok l ↔ value = l.name := by
  constructor
  · intro h
    unfold layoutOf at h
    split at h
    · cases h
    · split at h
      case h_1 found hfound =>
        cases h
        exact Layout.ofName?_eq_some_iff.mp hfound
      case h_2 => cases h
  · rintro rfl
    have hne : l.name.isEmpty = false := by cases l <;> decide
    rw [layoutOf, hne, Layout.ofName?_eq_some_iff.mpr rfl]
    rfl

theorem isPlain_name (l : Layout) : IsPlain l.name := by
  intro c rest
  cases l <;> simp [Layout.name]

namespace Command

private theorem option?_eq_some_format_iff {c : Command} {name : String} :
    c.option? name = some .format ↔ name = "format" := by
  constructor
  · intro h
    rw [option?] at h
    have hname := List.find?_some h
    exact (Option.some.inj (beq_iff_eq.mp hname)).symm
  · rintro rfl
    cases c <;> decide

end Command

namespace Reading
variable {environment : Option String} {r r' checked : Reading} {argument : String}

private theorem checkOrStop_eq_ok_iff :
    r.checkOrStop = .ok checked ↔ r.check = (checked, none) := by
  rw [checkOrStop]
  rcases r.check with ⟨_, _ | m⟩ <;> simp

theorem checkOrStop_bind_eq_ok_iff {α : Type} {next : Reading → Except Stop α} {result : α} :
    r.checkOrStop >>= next = .ok result ↔
      ∃ checked, r.check = (checked, none) ∧ next checked = .ok result := by
  simp only [bind_eq_ok_iff, checkOrStop_eq_ok_iff]

/-- What an argument does to a reading that takes it and goes on. -/
inductive Step (r : Reading) : String → Reading → Prop where
  | dashes : r.onlyFiles = false → Step r "--" { r with onlyFiles := true }
  | format {checked : Reading} : r.onlyFiles = false → r.check = (checked, none) →
      Step r "--format" { checked with unchecked := some (.format none), awaitsFormat := true }
  | attachedFormat {value : String} {checked next : Reading} : r.onlyFiles = false →
      r.check = (checked, none) →
      { checked with unchecked := some (.format (some value)) }.check = (next, none) →
      Step r ("--format=" ++ value) next
  | value {value : String} : r.onlyFiles = false → r.awaitsFormat = true → IsPlain value →
      Step r value { r with unchecked := some (.format (some value)), awaitsFormat := false }
  | file {path : String} {checked : Reading} :
      r.onlyFiles = true ∨ r.awaitsFormat = false ∧ IsPlain path → r.command.takesFile = true →
      r.fileTaken = false → r.check = (checked, none) →
      Step r path { checked with unchecked := some (.sourceFile path), fileTaken := true }

private theorem takePlain_eq_ok_iff : r.takePlain argument = .ok r' ↔
    r.command.takesFile = true ∧ r.fileTaken = false ∧ ∃ checked, r.check = (checked, none) ∧
      r' = { checked with unchecked := some (.sourceFile argument), fileTaken := true } := by
  unfold takePlain
  split
  case isTrue hplace =>
    obtain ⟨htakes, htaken⟩ : r.command.takesFile = true ∧ r.fileTaken = false := by
      simpa using hplace
    rw [checkOrStop_bind_eq_ok_iff]
    simp [htakes, htaken, pure, Except.pure, eq_comm]
  case isFalse hplace =>
    refine iff_of_false nofun ?_
    rintro ⟨htakes, htaken, -⟩
    exact hplace (by simp [htakes, htaken])

private theorem takeOption_none_eq_ok_iff {name : String} :
    r.takeOption environment name none = .ok r' ↔ name = "format" ∧ ∃ checked,
      r.check = (checked, none) ∧
        { checked with unchecked := some (.format none), awaitsFormat := true } = r' := by
  have hname : r.command.option? name = some .format ↔ name = "format" :=
    Command.option?_eq_some_format_iff
  unfold takeOption
  rw [← hname]
  generalize r.command.option? name = found
  rcases found with _ | (_ | _ | _ | _) <;>
    simp [checkOrStop_bind_eq_ok_iff, pure, Except.pure]

private theorem takeOption_some_eq_ok_iff {name value : String} :
    r.takeOption environment name (some value) = .ok r' ↔ name = "format" ∧ ∃ checked,
      r.check = (checked, none) ∧
        { checked with unchecked := some (.format (some value)) }.check = (r', none) := by
  have hname : r.command.option? name = some .format ↔ name = "format" :=
    Command.option?_eq_some_format_iff
  unfold takeOption
  rw [← hname]
  generalize r.command.option? name = found
  rcases found with _ | (_ | _ | _ | _) <;>
    simp [checkOrStop_bind_eq_ok_iff, checkOrStop_eq_ok_iff]

private theorem takeLetter_ne_ok {letter : Char} : r.takeLetter environment letter ≠ .ok r' := by
  unfold takeLetter
  split_ifs <;> simp [checkOrStop_bind_eq_ok_iff]

private theorem take_of_onlyFiles (hfiles : r.onlyFiles = true) :
    r.take environment argument = r.takePlain argument := by
  rw [take, if_pos hfiles]

private theorem take_option (hfiles : r.onlyFiles = false) {option : List Char}
    (hne : option ≠ []) (hoption : '=' ∉ option) (h : argument.toList = '-' :: '-' :: option) :
    r.take environment argument = r.takeOption environment (String.ofList option) none := by
  have hall : ∀ c ∈ option, (c != '=') = true := fun c hc =>
    bne_iff_ne.mpr fun heq => hoption (heq ▸ hc)
  obtain ⟨c, rest, rfl⟩ := List.exists_cons_of_ne_nil hne
  rw [take, if_neg (by simp [hfiles]), h]
  simp only [List.takeWhile_eq_self_iff.mpr hall, List.dropWhile_eq_nil_iff.mpr hall]

private theorem take_attached (hfiles : r.onlyFiles = false) {name value : List Char}
    (hname : '=' ∉ name) (h : argument.toList = '-' :: '-' :: (name ++ '=' :: value)) :
    r.take environment argument =
      r.takeOption environment (String.ofList name) (some (String.ofList value)) := by
  have hall : ∀ c ∈ name, (c != '=') = true := fun c hc =>
    bne_iff_ne.mpr fun heq => hname (heq ▸ hc)
  obtain ⟨c, rest, hcons⟩ := List.exists_cons_of_ne_nil (l := name ++ '=' :: value) (by simp)
  have htake : (name ++ '=' :: value).takeWhile (· != '=') = name := by
    rw [List.takeWhile_append_of_pos hall]
    simp
  have hdrop : (name ++ '=' :: value).dropWhile (· != '=') = '=' :: value := by
    rw [List.dropWhile_append_of_pos hall]
    simp
  rw [hcons] at h htake hdrop
  rw [take, if_neg (by simp [hfiles]), h]
  simp only [htake, hdrop]

private theorem take_plain (hfiles : r.onlyFiles = false) (hplain : IsPlain argument) :
    r.take environment argument = if r.awaitsFormat then
      .ok { r with unchecked := some (.format (some argument)), awaitsFormat := false }
    else r.takePlain argument := by
  rw [take, if_neg (by simp [hfiles])]
  split
  case h_1 h => exact absurd h (hplain _ _)
  case h_2 h => exact absurd h (hplain _ _)
  case h_3 h => exact absurd h (hplain _ _)
  case h_4 => rfl

private theorem take_letter (hfiles : r.onlyFiles = false) {letter : Char} {rest : List Char}
    (hletter : letter ≠ '-') (h : argument.toList = '-' :: letter :: rest) :
    r.take environment argument = r.takeLetter environment letter := by
  rw [take, if_neg (by simp [hfiles])]
  split
  case h_1 hdashes =>
    rw [h] at hdashes
    cases hdashes
    exact absurd rfl hletter
  case h_2 hoption =>
    rw [h] at hoption
    cases hoption
    exact absurd rfl hletter
  case h_3 hsame =>
    rw [h] at hsame
    cases hsame
    rfl
  case h_4 hplain => exact absurd h (hplain _ _)

private theorem step_of_option {option : List Char} (hfiles : r.onlyFiles = false)
    (hne : option ≠ []) (hoption : argument.toList = '-' :: '-' :: option)
    (h : r.take environment argument = .ok r') : r.Step argument r' := by
  by_cases hequals : '=' ∈ option
  · obtain ⟨name, value, rfl, hname⟩ := List.eq_append_cons_of_mem hequals
    rw [take_attached hfiles hname hoption] at h
    obtain ⟨hformat, checked, hcheck, hnext⟩ := takeOption_some_eq_ok_iff.mp h
    have hargument : argument = "--format=" ++ String.ofList value := by
      apply String.toList_injective
      rw [hoption, ← String.toList_ofList (l := name), hformat]
      simp
    exact hargument ▸ .attachedFormat hfiles hcheck hnext
  · rw [take_option hfiles hne hequals hoption] at h
    obtain ⟨hformat, checked, hcheck, rfl⟩ := takeOption_none_eq_ok_iff.mp h
    have hargument : argument = "--format" := by
      apply String.toList_injective
      rw [hoption, ← String.toList_ofList (l := option), hformat]
      rfl
    exact hargument ▸ .format hfiles hcheck

private theorem step_of_not_plain (hfiles : r.onlyFiles = false) (hplain : ¬ IsPlain argument)
    (h : r.take environment argument = .ok r') : r.Step argument r' := by
  obtain ⟨c, rest, hargument⟩ : ∃ c rest, argument.toList = '-' :: c :: rest := by
    simpa [IsPlain] using hplain
  by_cases hc : c = '-'
  · subst hc
    cases rest with
    | nil =>
      obtain rfl : argument = "--" := String.toList_injective hargument
      rw [take, if_neg (by simp [hfiles]), hargument] at h
      cases h
      exact .dashes hfiles
    | cons d rest => exact step_of_option hfiles (List.cons_ne_nil _ _) hargument h
  · rw [take_letter hfiles hc hargument] at h
    exact absurd h takeLetter_ne_ok

theorem take_eq_ok_iff : r.take environment argument = .ok r' ↔ r.Step argument r' := by
  constructor
  · intro h
    cases hfiles : r.onlyFiles with
    | true =>
      rw [take_of_onlyFiles hfiles] at h
      obtain ⟨htakes, htaken, checked, hcheck, rfl⟩ := takePlain_eq_ok_iff.mp h
      exact .file (Or.inl hfiles) htakes htaken hcheck
    | false =>
      by_cases hplain : IsPlain argument
      · rw [take_plain hfiles hplain] at h
        split at h
        case isTrue hawaits =>
          cases h
          exact .value hfiles hawaits hplain
        case isFalse hawaits =>
          obtain ⟨htakes, htaken, checked, hcheck, rfl⟩ := takePlain_eq_ok_iff.mp h
          exact .file (Or.inr ⟨by simpa using hawaits, hplain⟩) htakes htaken hcheck
      · exact step_of_not_plain hfiles hplain h
  · intro h
    cases h with
    | dashes hfiles => simp [take, hfiles]
    | format hfiles hcheck =>
      have hne : "format".toList ≠ [] := by decide
      rw [take_option hfiles hne (by decide) rfl]
      exact takeOption_none_eq_ok_iff.mpr ⟨String.ofList_toList, _, hcheck, rfl⟩
    | @attachedFormat value checked _ hfiles hcheck hnext =>
      have hname : '=' ∉ "format".toList := by decide
      have hattached : ("--format=" ++ value).toList =
          '-' :: '-' :: ("format".toList ++ '=' :: value.toList) := by simp
      rw [take_attached hfiles hname hattached]
      exact takeOption_some_eq_ok_iff.mpr
        ⟨String.ofList_toList, _, hcheck, by rw [String.ofList_toList]; exact hnext⟩
    | value hfiles hawaits hplain => rw [take_plain hfiles hplain, if_pos hawaits]
    | file hplace htakes htaken hcheck =>
      have htake : r.takePlain argument = .ok _ :=
        takePlain_eq_ok_iff.mpr ⟨htakes, htaken, _, hcheck, rfl⟩
      rcases hplace with hfiles | ⟨hawaits, hplain⟩
      · rwa [take_of_onlyFiles hfiles]
      · cases hfiles : r.onlyFiles with
        | true => rwa [take_of_onlyFiles hfiles]
        | false => rwa [take_plain hfiles hplain, if_neg (by simp [hawaits])]

/-- What a check leaves where it finds nothing wrong. -/
inductive Settles (r : Reading) : Reading → Prop where
  | nothing : r.unchecked = none → Settles r { r with unchecked := none, awaitsFormat := false }
  | file {path : String} : r.unchecked = some (.sourceFile path) →
      Settles r { r with
        unchecked := none, awaitsFormat := false, given := r.given ++ [.sourceFile],
        sourceFile := some path }
  | format {l : Layout} : r.unchecked = some (.format (some l.name)) → .format ∉ r.given →
      Settles r { r with
        unchecked := none, awaitsFormat := false, given := r.given ++ [.format],
        layout := some l }

private theorem checkFormat_eq_none_iff {value : String} :
    r.checkFormat value = (checked, none) ↔ .format ∉ r.given ∧ ∃ l : Layout, value = l.name ∧
      { r with given := r.given ++ [.format], layout := some l } = checked := by
  unfold checkFormat
  by_cases hgiven : Parameter.format ∈ r.given
  · simp [hgiven]
  · rw [if_neg hgiven]
    cases hl : layoutOf value with
    | ok l =>
      obtain rfl := layoutOf_eq_ok_iff.mp hl
      simp [hgiven, Layout.name_inj_iff]
    | error m =>
      have hvalue : ∀ l : Layout, value ≠ l.name := by
        rintro l rfl
        rw [layoutOf_eq_ok_iff.mpr rfl] at hl
        cases hl
      simp [hvalue]

theorem check_eq_none_iff : r.check = (checked, none) ↔ r.Settles checked := by
  constructor
  · intro h
    unfold check at h
    split at h
    case h_1 hunchecked =>
      cases h
      exact .nothing hunchecked
    case h_2 hunchecked =>
      cases h
      exact .file hunchecked
    case h_3 => cases h
    case h_4 hunchecked =>
      obtain ⟨hgiven, l, rfl, rfl⟩ := checkFormat_eq_none_iff.mp h
      exact .format hunchecked hgiven
  · intro h
    unfold check
    cases h with
    | nothing hunchecked => simp only [hunchecked]
    | file hunchecked => simp only [hunchecked]
    | format hunchecked hgiven =>
      simp only [hunchecked]
      exact checkFormat_eq_none_iff.mpr ⟨hgiven, _, rfl, rfl⟩

theorem Settles.command_eq (h : r.Settles checked) : checked.command = r.command := by
  cases h <;> rfl

theorem Settles.onlyFiles_eq (h : r.Settles checked) :
    checked.onlyFiles = r.onlyFiles := by
  cases h <;> rfl

theorem Settles.fileTaken_eq (h : r.Settles checked) :
    checked.fileTaken = r.fileTaken := by
  cases h <;> rfl

theorem Settles.withFiles (h : r.Settles checked) (files : Bool) :
    { r with onlyFiles := files }.Settles { checked with onlyFiles := files } := by
  cases h with
  | nothing hunchecked => exact .nothing hunchecked
  | file hunchecked => exact .file hunchecked
  | format hunchecked hgiven => exact .format hunchecked hgiven

end Reading
end LoxLexis.CommandLine
