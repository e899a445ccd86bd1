import LoxLexis.Proofs.ReadingSteps

/-!
The command lines that are accepted, and what each of them says. All others show a page or are
refused.
-/
namespace LoxLexis.CommandLine

/-- The layout and the file that the arguments of a command give, each at most once and in any
order. Behind two dashes, which the flag tells of, anything is a file. -/
inductive Gives (c : Command) : Bool → Option Layout → Option String → List String → Prop where
  | nothing : Gives c false none none []
  | layout {l : Layout} {file : Option String} {arguments : List String} :
      Gives c false none file arguments →
      Gives c false (some l) file (arguments ++ ["--format", l.name])
  | attachedLayout {l : Layout} {file : Option String} {arguments : List String} :
      Gives c false none file arguments →
      Gives c false (some l) file (arguments ++ ["--format=" ++ l.name])
  | file {dashes : Bool} {layout : Option Layout} {path : String} {arguments : List String} :
      c.takesFile = true → dashes = true ∨ IsPlain path ∧ path ∉ c.subcommandNames →
      Gives c dashes layout none arguments →
      Gives c dashes layout (some path) (arguments ++ [path])
  | dashes {layout : Option Layout} {file : Option String} {arguments : List String} :
      Gives c false layout file arguments → Gives c true layout file (arguments ++ ["--"])

/-- The layout taken from the environment, which has to name one unless one is given. -/
inductive FromEnvironment : Option String → Option Layout → Option Layout → Prop where
  | unset {given : Option Layout} : FromEnvironment none given none
  | overruled {value : String} {l : Layout} : FromEnvironment (some value) (some l) none
  | set {l : Layout} : FromEnvironment (some l.name) none (some l)

/-- What a command line says. Before a subcommand a layout may be given, and a file to no effect. -/
inductive Says (environment : Option String) : List String → Instruction → Prop where
  | alone {dashes : Bool} {layout fromEnvironment : Option Layout} {file : Option String}
      {arguments : List String} : Gives .scanner dashes layout file arguments →
      FromEnvironment environment layout fromEnvironment →
      Says environment arguments ⟨.scanner, file, layout, fromEnvironment⟩
  | repl {dashes : Bool} {outer ignored layout fromEnvironment : Option Layout}
      {file : Option String} {before after : List String} :
      Gives .scanner false outer file before → FromEnvironment environment outer ignored →
      Gives .repl dashes layout none after → FromEnvironment environment layout fromEnvironment →
      Says environment (before ++ "repl" :: after)
        ⟨.repl, none, layout <|> outer, fromEnvironment⟩
  | tokenize {dashes : Bool} {outer ignored layout fromEnvironment : Option Layout}
      {file : Option String} {path : String} {before after : List String} :
      Gives .scanner false outer file before → FromEnvironment environment outer ignored →
      Gives .tokenize dashes layout (some path) after →
      FromEnvironment environment layout fromEnvironment →
      Says environment (before ++ "tokenize" :: after)
        ⟨.tokenize, some path, layout <|> outer, fromEnvironment⟩

namespace Reading
variable {environment : Option String} {r r' checked : Reading} {argument : String}

/-- The readings that arguments of a command lead to, none of which calls a subcommand. -/
inductive Reaches (environment : Option String) (c : Command) : List String → Reading → Prop where
  | start : Reaches environment c [] { command := c }
  | take {arguments : List String} {argument : String} {r r' : Reading} :
      Reaches environment c arguments r → r.callsSubcommand argument = false →
      r.take environment argument = .ok r' → Reaches environment c (arguments ++ [argument]) r'

/-- How a reading reflects the arguments it comes from. An argument counts only when it is checked,
so what it gives is told of the reading after a check. -/
structure Stands (c : Command) (arguments : List String) (r : Reading) : Prop where
  command : r.command = c
  format : .format ∈ r.given ↔ r.layout ≠ none
  file : r.fileTaken = true ↔ r.sourceFile ≠ none ∨ ∃ path, r.unchecked = some (.sourceFile path)
  awaits : r.awaitsFormat = true → r.unchecked = some (.format none)
  settled : ∀ checked, r.Settles checked →
    Gives c r.onlyFiles checked.layout checked.sourceFile arguments
  awaiting : r.unchecked = some (.format none) → r.onlyFiles = false →
    ∃ before, arguments = before ++ ["--format"] ∧ Gives c false r.layout r.sourceFile before

/-- Nothing is unchecked after a check. -/
structure IsSettled (r : Reading) : Prop where
  unchecked : r.unchecked = none
  awaits : r.awaitsFormat = false
  format : .format ∈ r.given ↔ r.layout ≠ none
  file : r.fileTaken = true ↔ r.sourceFile ≠ none

variable {c : Command} {arguments : List String}

private theorem Settles.isSettled (h : r.Settles checked)
    (hformat : .format ∈ r.given ↔ r.layout ≠ none)
    (hfile : r.fileTaken = true ↔
      r.sourceFile ≠ none ∨ ∃ path, r.unchecked = some (.sourceFile path)) :
    checked.IsSettled := by
  cases h with
  | nothing hunchecked => exact ⟨rfl, rfl, hformat, by simpa [hunchecked] using hfile⟩
  | file hunchecked => exact ⟨rfl, rfl, by simpa using hformat, by simpa [hunchecked] using hfile⟩
  | format hunchecked hgiven => exact ⟨rfl, rfl, by simp, by simpa [hunchecked] using hfile⟩

private theorem IsSettled.stands (h : r.IsSettled) (hc : r.command = c)
    (hgives : Gives c r.onlyFiles r.layout r.sourceFile arguments) : Stands c arguments r where
  command := hc
  format := h.format
  file := by simpa [h.unchecked] using h.file
  awaits := by simp [h.awaits]
  settled checked hchecked := by
    cases hchecked with
    | nothing => exact hgives
    | file hunchecked | format hunchecked => simp [h.unchecked] at hunchecked
  awaiting := by simp [h.unchecked]

namespace Stands

private theorem isSettled (h : Stands c arguments r) (hchecked : r.Settles checked) :
    checked.IsSettled :=
  hchecked.isSettled h.format h.file

private theorem dashes (h : Stands c arguments r) (hfiles : r.onlyFiles = false) :
    Stands c (arguments ++ ["--"]) { r with onlyFiles := true } where
  command := h.command
  format := h.format
  file := h.file
  awaits := h.awaits
  settled checked hchecked := by
    have hgives := h.settled _ (hchecked.withFiles r.onlyFiles)
    rw [hfiles] at hgives
    exact .dashes hgives
  awaiting _ hfalse := by cases hfalse

private theorem awaitingFormat (h : Stands c arguments r) (hfiles : r.onlyFiles = false)
    (hchecked : r.Settles checked) : Stands c (arguments ++ ["--format"])
      { checked with unchecked := some (.format none), awaitsFormat := true } where
  command := hchecked.command_eq.trans h.command
  format := (h.isSettled hchecked).format
  file := by simpa using (h.isSettled hchecked).file
  awaits _ := rfl
  settled next hnext := by
    cases hnext with
    | nothing hunchecked | file hunchecked | format hunchecked => cases hunchecked
  awaiting _ _ := ⟨arguments, rfl, hfiles ▸ h.settled checked hchecked⟩

private theorem attachedFormat (h : Stands c arguments r) (hfiles : r.onlyFiles = false)
    (hchecked : r.Settles checked) {value : String} {next : Reading}
    (hnext : { checked with unchecked := some (.format (some value)) }.Settles next) :
    Stands c (arguments ++ ["--format=" ++ value]) next := by
  have hsettled := h.isSettled hchecked
  have hgives := h.settled checked hchecked
  rw [hfiles] at hgives
  have hcommand := hnext.command_eq.trans (hchecked.command_eq.trans h.command)
  refine (hnext.isSettled hsettled.format (by simpa using hsettled.file)).stands hcommand ?_
  rw [hnext.onlyFiles_eq, hchecked.onlyFiles_eq, hfiles]
  cases hnext with
  | nothing hunchecked | file hunchecked => cases hunchecked
  | format hunchecked hgiven =>
    cases hunchecked
    have hlayout : checked.layout = none := by simpa [hsettled.format] using hgiven
    rw [hlayout] at hgives
    exact .attachedLayout hgives

private theorem value (h : Stands c arguments r) (hfiles : r.onlyFiles = false)
    (hawaits : r.awaitsFormat = true) (value : String) : Stands c (arguments ++ [value])
      { r with unchecked := some (.format (some value)), awaitsFormat := false } where
  command := h.command
  format := h.format
  file := by simpa [h.awaits hawaits] using h.file
  awaits hfalse := by cases hfalse
  settled checked hchecked := by
    obtain ⟨before, rfl, hgives⟩ := h.awaiting (h.awaits hawaits) hfiles
    cases hchecked with
    | nothing hunchecked | file hunchecked => cases hunchecked
    | format hunchecked hgiven =>
      cases hunchecked
      have hlayout : r.layout = none := by simpa [h.format] using hgiven
      rw [hlayout] at hgives
      rw [List.append_assoc]
      exact hfiles ▸ .layout hgives
  awaiting hunchecked := by cases hunchecked

private theorem plainFile (h : Stands c arguments r) (hchecked : r.Settles checked)
    {path : String} (hplace : r.onlyFiles = true ∨ IsPlain path ∧ path ∉ c.subcommandNames)
    (htakes : c.takesFile = true) (htaken : r.fileTaken = false) :
    Stands c (arguments ++ [path])
      { checked with unchecked := some (.sourceFile path), fileTaken := true } where
  command := hchecked.command_eq.trans h.command
  format := (h.isSettled hchecked).format
  file := by simp
  awaits := by simp [(h.isSettled hchecked).awaits]
  settled next hnext := by
    have hgives := h.settled checked hchecked
    have hfile : checked.sourceFile = none := by
      simpa [hchecked.fileTaken_eq, htaken] using (h.isSettled hchecked).file
    rw [hfile] at hgives
    cases hnext with
    | nothing hunchecked | format hunchecked => cases hunchecked
    | file hunchecked =>
      cases hunchecked
      have hdashes := hchecked.onlyFiles_eq
      rw [← hdashes] at hgives hplace
      exact .file htakes hplace hgives
  awaiting hunchecked := by cases hunchecked

private theorem step (h : Stands c arguments r) (hcalls : r.callsSubcommand argument = false)
    (hstep : r.Step argument r') : Stands c (arguments ++ [argument]) r' := by
  cases hstep with
  | dashes hfiles => exact h.dashes hfiles
  | format hfiles hcheck => exact h.awaitingFormat hfiles (check_eq_none_iff.mp hcheck)
  | attachedFormat hfiles hcheck hnext =>
    exact h.attachedFormat hfiles (check_eq_none_iff.mp hcheck) (check_eq_none_iff.mp hnext)
  | value hfiles hawaits => exact h.value hfiles hawaits argument
  | file hplace htakes htaken hcheck =>
    rw [h.command] at htakes
    refine h.plainFile (check_eq_none_iff.mp hcheck) ?_ htakes htaken
    rcases hplace with hfiles | ⟨hawaits, hplain⟩
    · exact Or.inl hfiles
    · rw [callsSubcommand, hawaits, h.command] at hcalls
      cases hfiles : r.onlyFiles with
      | true => exact Or.inl rfl
      | false => exact Or.inr ⟨hplain, by simpa [hfiles] using hcalls⟩

end Stands

private theorem Reaches.stands (h : Reaches environment c arguments r) : Stands c arguments r := by
  -- Argument by argument: at the start there is nothing to check.
  induction h with
  | start => exact IsSettled.stands ⟨rfl, rfl, by simp, by simp⟩ rfl .nothing
  | take _ hcalls htake ih => exact ih.step hcalls (take_eq_ok_iff.mp htake)

private theorem Stands.awaits_eq_false (h : Stands c arguments r) (hchecked : r.Settles checked) :
    r.awaitsFormat = false := by
  rw [Bool.eq_false_iff]
  intro hawaits
  have hnone := h.awaits hawaits
  cases hchecked with
  | nothing hunchecked | file hunchecked | format hunchecked => simp [hunchecked] at hnone

private theorem callsSubcommand_of_dash (hdash : '-' ∈ argument.toList) :
    r.callsSubcommand argument = false := by
  have hname : argument ∉ r.command.subcommandNames := by
    intro hm
    cases hc : r.command with
    | scanner =>
      rw [hc] at hm
      simp only [Command.subcommandNames, List.mem_cons, List.not_mem_nil, or_false] at hm
      rcases hm with rfl | rfl | rfl <;> revert hdash <;> decide
    | repl | tokenize =>
      rw [hc] at hm
      cases hm
  simp [callsSubcommand, hname]

private theorem exists_reaches {dashes : Bool} {layout : Option Layout} {file : Option String}
    (h : Gives c dashes layout file arguments) : ∃ r checked, Reaches environment c arguments r ∧
      r.Settles checked ∧ r.onlyFiles = dashes ∧ checked.layout = layout ∧
      checked.sourceFile = file := by
  induction h with
  | nothing => exact ⟨_, _, .start, .nothing rfl, rfl, rfl, rfl⟩
  | @layout l file arguments _ ih =>
    -- Two steps: the name of the option is taken, and then its value.
    obtain ⟨r, checked, hr, hchecked, hfiles, hlayout, hfile⟩ := ih
    have hsettled := hr.stands.isSettled hchecked
    have hgiven : .format ∉ checked.given := by simp [hsettled.format, hlayout]
    have hopen := hchecked.onlyFiles_eq.trans hfiles
    have hformat : r.Step "--format" _ := .format hfiles (check_eq_none_iff.mpr hchecked)
    have hvalue : Step { checked with unchecked := some (.format none), awaitsFormat := true }
        l.name _ := .value hopen rfl (isPlain_name l)
    have hreaches := (hr.take (callsSubcommand_of_dash (by decide))
      (take_eq_ok_iff.mpr hformat)).take (by simp [callsSubcommand]) (take_eq_ok_iff.mpr hvalue)
    rw [List.append_assoc] at hreaches
    exact ⟨_, _, hreaches, .format rfl hgiven, hopen, rfl, hfile⟩
  | @attachedLayout l file arguments _ ih =>
    obtain ⟨r, checked, hr, hchecked, hfiles, hlayout, hfile⟩ := ih
    have hsettled := hr.stands.isSettled hchecked
    have hgiven : .format ∉ checked.given := by simp [hsettled.format, hlayout]
    have hnext : Settles { checked with unchecked := some (.format (some l.name)) } _ :=
      .format rfl hgiven
    have hattached : r.Step ("--format=" ++ l.name) _ :=
      .attachedFormat hfiles (check_eq_none_iff.mpr hchecked) (check_eq_none_iff.mpr hnext)
    have hreaches := hr.take (callsSubcommand_of_dash (by simp)) (take_eq_ok_iff.mpr hattached)
    exact ⟨_, _, hreaches, .nothing rfl, hchecked.onlyFiles_eq.trans hfiles, rfl, hfile⟩
  | @file dashes layout path arguments htakes hplace _ ih =>
    obtain ⟨r, checked, hr, hchecked, hfiles, hlayout, hfile⟩ := ih
    have hsettled := hr.stands.isSettled hchecked
    have hawaits := hr.stands.awaits_eq_false hchecked
    have htaken : r.fileTaken = false := by
      have htaken : ¬ checked.fileTaken = true := by simp [hsettled.file, hfile]
      simpa [hchecked.fileTaken_eq] using htaken
    rw [← hfiles] at hplace
    have hstep : r.Step path _ := .file (hplace.imp id fun h => ⟨hawaits, h.1⟩)
      (by rwa [hr.stands.command]) htaken (check_eq_none_iff.mpr hchecked)
    have hcalls : r.callsSubcommand path = false := by
      rcases hplace with hdashes | ⟨-, hname⟩
      · simp [callsSubcommand, hdashes]
      · simp [callsSubcommand, hr.stands.command, hname]
    have hreaches := hr.take hcalls (take_eq_ok_iff.mpr hstep)
    exact ⟨_, _, hreaches, .file rfl, hchecked.onlyFiles_eq.trans hfiles, hlayout, rfl⟩
  | dashes _ ih =>
    obtain ⟨r, checked, hr, hchecked, hfiles, hlayout, hfile⟩ := ih
    have hreaches := hr.take (callsSubcommand_of_dash (by decide))
      (take_eq_ok_iff.mpr (.dashes hfiles))
    exact ⟨_, _, hreaches, hchecked.withFiles true, rfl, hlayout, hfile⟩

private theorem environmentLayout_eq_ok_iff {layout : Option Layout}
    (h : .format ∈ r.given ↔ r.layout ≠ none) :
    r.environmentLayout environment = .ok layout ↔ FromEnvironment environment r.layout layout := by
  cases environment with
  | none =>
    constructor
    · rintro ⟨⟩
      exact .unset
    · rintro ⟨⟩
      rfl
  | some value =>
    unfold environmentLayout
    by_cases hgiven : .format ∈ r.given
    · obtain ⟨l, hl⟩ := Option.ne_none_iff_exists'.mp (h.mp hgiven)
      simp only [if_pos hgiven, hl]
      constructor
      · rintro ⟨⟩
        exact .overruled
      · rintro ⟨⟩
        rfl
    · have hnone : r.layout = none := by simpa [hgiven] using h
      simp only [if_neg hgiven, hnone]
      constructor
      · intro hmap
        cases hvalue : layoutOf value with
        | error m =>
          rw [hvalue] at hmap
          cases hmap
        | ok l =>
          rw [hvalue] at hmap
          cases hmap
          obtain rfl := layoutOf_eq_ok_iff.mp hvalue
          exact .set
      · rintro ⟨⟩
        rw [layoutOf_eq_ok_iff.mpr rfl]
        rfl

private theorem fileDemand_eq_required_iff {c : Command} :
    c.fileDemand = .required ↔ c = .tokenize := by
  cases c <;> decide

private theorem conclude_eq_ok_iff {i : Instruction} (h : Stands c arguments r) :
    r.conclude environment = .ok i ↔ ∃ checked fromEnvironment, r.Settles checked ∧
      FromEnvironment environment checked.layout fromEnvironment ∧
      (c = .tokenize → checked.sourceFile ≠ none) ∧
      ⟨c, checked.sourceFile, checked.layout, fromEnvironment⟩ = i := by
  rw [conclude, checkOrStop_bind_eq_ok_iff]
  constructor
  · rintro ⟨checked, hcheck, hrest⟩
    have hchecked := check_eq_none_iff.mp hcheck
    have hcommand := hchecked.command_eq.trans h.command
    split at hrest
    case h_1 => cases hrest
    case h_2 fromEnvironment hlayout =>
      rw [environmentLayout_eq_ok_iff (h.isSettled hchecked).format] at hlayout
      rw [hcommand] at hrest
      split at hrest
      case isTrue => cases hrest
      case isFalse hfile =>
        cases hrest
        refine ⟨checked, fromEnvironment, hchecked, hlayout, fun hc hnone => ?_, rfl⟩
        exact hfile ⟨fileDemand_eq_required_iff.mpr hc, hnone⟩
  · rintro ⟨checked, fromEnvironment, hchecked, hlayout, hfile, rfl⟩
    have hcommand := hchecked.command_eq.trans h.command
    refine ⟨checked, check_eq_none_iff.mpr hchecked, ?_⟩
    rw [← environmentLayout_eq_ok_iff (h.isSettled hchecked).format] at hlayout
    rw [hlayout, hcommand]
    dsimp only
    rw [if_neg fun h => hfile (fileDemand_eq_required_iff.mp h.1) h.2]
    rfl

end Reading

open Reading

variable {environment : Option String} {c : Command} {arguments : List String} {i : Instruction}

/-- The arguments of a command, none of which calls a subcommand. -/
private theorem conclude_reached_iff : (∃ r, Reaches environment c arguments r ∧
    r.conclude environment = .ok i) ↔ ∃ dashes layout file fromEnvironment,
      Gives c dashes layout file arguments ∧ FromEnvironment environment layout fromEnvironment ∧
      (c = .tokenize → file ≠ none) ∧ ⟨c, file, layout, fromEnvironment⟩ = i := by
  constructor
  · rintro ⟨r, hr, hconclude⟩
    obtain ⟨checked, fromEnvironment, hchecked, hlayout, hfile, rfl⟩ :=
      (conclude_eq_ok_iff hr.stands).mp hconclude
    exact ⟨_, _, _, _, hr.stands.settled checked hchecked, hlayout, hfile, rfl⟩
  · rintro ⟨dashes, layout, file, fromEnvironment, hgives, hlayout, hfile, rfl⟩
    obtain ⟨r, checked, hr, hchecked, -, rfl, rfl⟩ := exists_reaches hgives
    exact ⟨r, hr, (conclude_eq_ok_iff hr.stands).mpr ⟨checked, _, hchecked, hlayout, hfile, rfl⟩⟩

private theorem readArguments_of_reaches {r : Reading} {before after : List String}
    (h : Reaches environment c before r) :
    readArguments environment { command := c } (before ++ after) =
      readArguments environment r after := by
  induction h generalizing after with
  | start => rfl
  | take _ hcalls htake ih =>
    rw [List.append_assoc, ih, List.singleton_append, readArguments, if_neg (by simp [hcalls]),
      htake]
    rfl

/-- Reading ends in the command itself or goes over to a subcommand. -/
private theorem readArguments_eq_ok {r : Reading} {before after : List String}
    (hr : Reaches environment c before r) (h : readArguments environment r after = .ok i) :
    (∃ last, Reaches environment c (before ++ after) last ∧ last.conclude environment = .ok i) ∨
      ∃ front name rest last inner outer, before ++ after = front ++ name :: rest ∧
        Reaches environment c front last ∧ last.callsSubcommand name = true ∧ name ≠ "help" ∧
        readArguments environment { command := if name = "repl" then .repl else .tokenize } rest =
          .ok inner ∧
        last.conclude environment = .ok outer ∧
        { inner with givenLayout := inner.givenLayout <|> outer.givenLayout } = i := by
  induction after generalizing before r with
  | nil =>
    rw [List.append_nil]
    exact Or.inl ⟨r, hr, h⟩
  | cons argument rest ih =>
    rw [readArguments] at h
    split at h
    case isTrue hcalls =>
      split at h
      case isTrue =>
        split at h <;> cases h
      case isFalse hhelp =>
        obtain ⟨inner, hinner, h⟩ := bind_eq_ok_iff.mp h
        obtain ⟨outer, houter, h⟩ := bind_eq_ok_iff.mp h
        cases h
        exact Or.inr ⟨before, argument, rest, r, inner, outer, rfl, hr, hcalls, hhelp, hinner,
          houter, rfl⟩
    case isFalse hcalls =>
      cases htake : r.take environment argument with
      | error stop =>
        rw [htake] at h
        cases h
      | ok next =>
        rw [htake] at h
        rw [List.append_cons]
        exact ih (hr.take (by simpa using hcalls) htake) h

private theorem readArguments_eq_ok_iff (hc : c ≠ .scanner) :
    readArguments environment { command := c } arguments = .ok i ↔
      ∃ dashes layout file fromEnvironment, Gives c dashes layout file arguments ∧
        FromEnvironment environment layout fromEnvironment ∧
        (c = .tokenize → file ≠ none) ∧ ⟨c, file, layout, fromEnvironment⟩ = i := by
  rw [← conclude_reached_iff]
  constructor
  · intro h
    rcases readArguments_eq_ok .start h with hlast | ⟨_, name, _, last, _, _, -, hlast, hcalls, -⟩
    · exact hlast
    · have hnone : last.command.subcommandNames = [] := by
        rw [hlast.stands.command]
        cases c with
        | scanner => exact absurd rfl hc
        | repl | tokenize => rfl
      simp [callsSubcommand, hnone] at hcalls
  · rintro ⟨r, hr, hconclude⟩
    rw [← List.append_nil arguments, readArguments_of_reaches hr]
    exact hconclude

private theorem gives_repl_file_eq_none {dashes : Bool} {layout : Option Layout}
    {file : Option String} (h : Gives .repl dashes layout file arguments) : file = none := by
  induction h with
  | nothing => rfl
  | layout _ ih | attachedLayout _ ih | dashes _ ih => exact ih
  | file htakes => cases htakes

/-- What stands before the name of a subcommand. -/
private theorem gives_of_callsSubcommand {r : Reading} {name : String}
    (hr : Reaches environment .scanner arguments r) (hcalls : r.callsSubcommand name = true)
    (h : r.conclude environment = .ok i) : name ∈ Command.scanner.subcommandNames ∧
      Gives .scanner false i.givenLayout i.sourceFile arguments ∧
      ∃ ignored, FromEnvironment environment i.givenLayout ignored := by
  obtain ⟨checked, ignored, hchecked, hlayout, -, rfl⟩ := (conclude_eq_ok_iff hr.stands).mp h
  have hgives := hr.stands.settled checked hchecked
  simp only [callsSubcommand, Bool.and_eq_true, Bool.not_eq_true', decide_eq_true_eq,
    hr.stands.command] at hcalls
  rw [hcalls.1.1] at hgives
  exact ⟨hcalls.2, hgives, ignored, hlayout⟩

private theorem exists_callsSubcommand {layout ignored : Option Layout} {file : Option String}
    (h : Gives .scanner false layout file arguments)
    (hlayout : FromEnvironment environment layout ignored) :
    ∃ r, Reaches environment .scanner arguments r ∧
      (∀ name ∈ Command.scanner.subcommandNames, r.callsSubcommand name = true) ∧
      r.conclude environment = .ok ⟨.scanner, file, layout, ignored⟩ := by
  obtain ⟨r, checked, hr, hchecked, hfiles, rfl, rfl⟩ := exists_reaches h
  refine ⟨r, hr, fun name hname => ?_, (conclude_eq_ok_iff hr.stands).mpr
    ⟨checked, ignored, hchecked, hlayout, by simp, rfl⟩⟩
  simp [callsSubcommand, hfiles, hr.stands.awaits_eq_false hchecked, hr.stands.command, hname]

private theorem readArguments_subcommand {r : Reading} {name : String}
    {rest : List String} {inner outer : Instruction} (hcalls : r.callsSubcommand name = true)
    (hhelp : name ≠ "help") (hc : (if name = "repl" then .repl else .tokenize) = c)
    (hinner : readArguments environment { command := c } rest = .ok inner)
    (houter : r.conclude environment = .ok outer) : readArguments environment r (name :: rest) =
      .ok { inner with givenLayout := inner.givenLayout <|> outer.givenLayout } := by
  subst hc
  rw [readArguments, if_pos hcalls, if_neg hhelp]
  simp only [hinner, houter]
  rfl

/-- Which command lines are accepted, and what they say. -/
theorem read_eq_ok_iff : read environment arguments = .ok i ↔ Says environment arguments i := by
  constructor
  · intro h
    rcases readArguments_eq_ok .start h with hlast |
      ⟨front, name, rest, last, inner, outer, hsplit, hlast, hcalls, hhelp, hinner, houter, rfl⟩
    · obtain ⟨_, _, _, _, hgives, hlayout, -, rfl⟩ := conclude_reached_iff.mp hlast
      exact .alone hgives hlayout
    · obtain ⟨hname, hbefore, ignored, houterLayout⟩ :=
        gives_of_callsSubcommand hlast hcalls houter
      rw [List.nil_append] at hsplit
      subst hsplit
      simp only [Command.subcommandNames, List.mem_cons, List.not_mem_nil, or_false] at hname
      rcases hname with rfl | rfl | rfl
      · rw [if_pos rfl] at hinner
        obtain ⟨_, _, file, _, hafter, hlayout, -, rfl⟩ :=
          (readArguments_eq_ok_iff (by decide)).mp hinner
        obtain rfl := gives_repl_file_eq_none hafter
        exact .repl hbefore houterLayout hafter hlayout
      · rw [if_neg (by decide)] at hinner
        obtain ⟨_, _, file, _, hafter, hlayout, hfile, rfl⟩ :=
          (readArguments_eq_ok_iff (by decide)).mp hinner
        obtain ⟨path, rfl⟩ := Option.ne_none_iff_exists'.mp (hfile rfl)
        exact .tokenize hbefore houterLayout hafter hlayout
      · exact absurd rfl hhelp
  · intro h
    cases h with
    | alone hgives hlayout =>
      obtain ⟨r, hr, hconclude⟩ :=
        conclude_reached_iff.mpr ⟨_, _, _, _, hgives, hlayout, by simp, rfl⟩
      rw [read, ← List.append_nil arguments, readArguments_of_reaches hr]
      exact hconclude
    | repl hbefore houter hafter hlayout =>
      obtain ⟨r, hr, hcalls, hconclude⟩ := exists_callsSubcommand hbefore houter
      rw [read, readArguments_of_reaches hr]
      exact readArguments_subcommand (hcalls _ (by decide)) (by decide) (by decide)
        ((readArguments_eq_ok_iff (by decide)).mpr ⟨_, _, _, _, hafter, hlayout, by simp, rfl⟩)
        hconclude
    | tokenize hbefore houter hafter hlayout =>
      obtain ⟨r, hr, hcalls, hconclude⟩ := exists_callsSubcommand hbefore houter
      rw [read, readArguments_of_reaches hr]
      exact readArguments_subcommand (hcalls _ (by decide)) (by decide) (by decide)
        ((readArguments_eq_ok_iff (by decide)).mpr ⟨_, _, _, _, hafter, hlayout, by simp, rfl⟩)
        hconclude

end LoxLexis.CommandLine
