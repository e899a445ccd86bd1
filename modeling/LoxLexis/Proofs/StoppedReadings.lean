import LoxLexis.Proofs.ReadingSteps

/-!
Why reading a command line can stop. Every page is one of those that there are, and a complaint
shows the usage of a command and advises only what that command knows.
-/
namespace LoxLexis.CommandLine

/-- Advice that can be taken with a command. -/
inductive Tip.IsApt (c : Command) : Tip → Prop where
  | asValue {argument : String} : c.takesFile = true → ¬ IsPlain argument →
      IsApt c (.asValue argument)
  | similarArgument {p : Parameter} {name : String} : p ∈ c.options → p.flagName? = some name →
      IsApt c (.similarArgument ("--" ++ name))
  | similarValue (l : Layout) : IsApt c (.similarValue l.name)
  | similarCommands {names : List String} : names ≠ [] →
      (∀ name ∈ names, name ∈ c.subcommandNames) → IsApt c (.similarCommands names)
  | withoutDashes {name : String} : name ∈ c.subcommandNames → IsApt c (.withoutDashes name)

/-- A complaint that a command can make. -/
structure Misuse.Concerns (c : Command) (m : Misuse) : Prop where
  tip : ∀ tip, m.tip? = some tip → tip.IsApt c
  usage : ∀ usage, m.usage? = some usage → c.invocation.toList <+: usage.toList
  close : m.hasHelp = true ∨ m.usage? = some helpUsage

inductive Stop.IsKnown (environment : Option String) : Stop → Prop where
  | version : IsKnown environment (.page versionPage)
  | short (c : Command) : IsKnown environment (.page (shortPage environment c))
  | topic (t : HelpTopic) : IsKnown environment (.page (t.page environment))
  | misuse {c : Command} {m : Misuse} : m.Concerns c → IsKnown environment (.misuse m)

private theorem getLast?_pageOf (paragraphs : List String) :
    (pageOf paragraphs).toList.getLast? = some '\n' := by
  rw [pageOf, String.toList_append]
  exact List.getLast?_concat

/-- After every page a new line begins. -/
theorem Stop.IsKnown.getLast?_page {environment : Option String} {text : String}
    (h : (Stop.page text).IsKnown environment) : text.toList.getLast? = some '\n' := by
  cases h with
  | version => decide
  | short => exact getLast?_pageOf _
  | topic t =>
    cases t with
    | command => exact getLast?_pageOf _
    | helpItself => exact getLast?_pageOf _

private theorem message_text_of_last {m : Misuse} {front : List String} {last : String}
    (htext : m.text = "\n\n".intercalate (front ++ [last]))
    (hlast : last.toList.getLast? = some '.') : (Failure.usage m.text).message = m.text := by
  have hdot : Text.isWhiteSpace '.' = false := by decide
  obtain ⟨start, hstart⟩ := List.getLast?_eq_some_iff.mp hlast
  obtain ⟨before, hbefore⟩ : ∃ before, m.text.toList = before ++ ['.'] := by
    rw [htext]
    cases front with
    | nil => exact ⟨start, by simpa using hstart⟩
    | cons first rest =>
      rw [String.intercalate_append_of_ne_nil (List.cons_ne_nil _ _) (List.cons_ne_nil _ _),
        String.intercalate_singleton, String.toList_append, hstart]
      exact ⟨_, (List.append_assoc _ _ _).symm⟩
  have hkept : Text.dropTrailing Text.isWhiteSpace m.text.toList = m.text.toList := by
    rw [hbefore, Text.dropTrailing_concat hdot]
  exact (congrArg String.ofList hkept).trans String.ofList_toList

/-- A complaint ends in a full stop, so that nothing is taken off its end. -/
theorem Misuse.Concerns.message_text {c : Command} {m : Misuse} (h : m.Concerns c) :
    (Failure.usage m.text).message = m.text := by
  cases hhelp : m.hasHelp with
  | true =>
    obtain ⟨front, hfront⟩ : ∃ front, m.text =
        "\n\n".intercalate (front ++ ["For more information, try '--help'."]) := by
      rw [text, if_pos hhelp]
      exact ⟨_, rfl⟩
    exact message_text_of_last hfront (by decide)
  | false =>
    obtain ⟨front, hfront⟩ : ∃ front, m.text =
        "\n\n".intercalate (front ++ ["Usage: " ++ helpUsage]) := by
      rw [text, if_neg (by simp [hhelp]), List.append_nil,
        h.close.resolve_left (by simp [hhelp])]
      exact ⟨_, rfl⟩
    exact message_text_of_last hfront (by decide)

private theorem bind_eq_error {α β : Type} {first : Except Stop α} {next : α → Except Stop β}
    {stop : Stop} (h : first >>= next = .error stop) :
    first = .error stop ∨ ∃ a, first = .ok a ∧ next a = .error stop := by
  cases first with
  | error s =>
    cases h
    exact Or.inl rfl
  | ok a => exact Or.inr ⟨a, rfl, h⟩

private theorem mem_of_mem_suggestions {word candidate : String} {candidates : List String}
    (h : candidate ∈ suggestions word candidates) : candidate ∈ candidates := by
  simp only [suggestions, List.mem_map, List.mem_mergeSort, List.mem_filter] at h
  obtain ⟨_, ⟨⟨_, hm, rfl⟩, -⟩, rfl⟩ := h
  exact hm

private theorem mem_of_bestSuggestion? {word candidate : String} {candidates : List String}
    (h : bestSuggestion? word candidates = some candidate) : candidate ∈ candidates :=
  mem_of_mem_suggestions (List.mem_of_getLast? h)

namespace Command
variable (c : Command)

private theorem invocation_isPrefix_usage : c.invocation.toList <+: c.usage.toList := by
  simp only [usage, String.toList_append, List.append_assoc]
  exact List.prefix_append _ _

private theorem invocation_isPrefix_usageWith (parameters : List Parameter) :
    c.invocation.toList <+: (c.usageWith parameters).toList := by
  unfold usageWith
  split
  · exact c.invocation_isPrefix_usage
  · simp only [String.toList_append, List.append_assoc]
    exact List.prefix_append _ _

private theorem invocation_isPrefix_usageAmongOwn (parameters : List Parameter) :
    c.invocation.toList <+: (c.usageAmongOwn parameters).toList := by
  simp only [usageAmongOwn, String.toList_append, List.append_assoc]
  exact List.prefix_append _ _

end Command

private theorem layoutOf_concerns {value : String} {m : Misuse} (h : layoutOf value = .error m)
    (c : Command) : m.Concerns c := by
  unfold layoutOf at h
  split at h
  · cases h
    exact ⟨nofun, nofun, Or.inl rfl⟩
  · split at h
    case h_1 => cases h
    case h_2 =>
      cases h
      refine ⟨fun tip htip => ?_, nofun, Or.inl rfl⟩
      obtain ⟨name, hname, rfl⟩ := Option.map_eq_some_iff.mp htip
      obtain ⟨l, -, rfl⟩ := List.mem_map.mp (mem_of_bestSuggestion? hname)
      exact .similarValue l

namespace Reading
variable {environment : Option String} {r : Reading} {stop : Stop} {m : Misuse}

private theorem checkFormat_concerns {value : String} (h : (r.checkFormat value).2 = some m) :
    m.Concerns r.command := by
  unfold checkFormat at h
  split_ifs at h
  · cases h
    exact ⟨nofun, fun usage husage => Option.some.inj husage ▸ r.command.invocation_isPrefix_usage,
      Or.inl rfl⟩
  · cases hvalue : layoutOf value with
    | ok l => simp [hvalue] at h
    | error m' =>
      simp only [hvalue, Option.some.injEq] at h
      exact h ▸ layoutOf_concerns hvalue r.command

private theorem check_concerns (h : r.check.2 = some m) : m.Concerns r.command := by
  unfold check at h
  split at h
  case h_1 | h_2 => cases h
  case h_3 =>
    cases h
    exact ⟨nofun, nofun, Or.inl rfl⟩
  case h_4 =>
    have hformat := checkFormat_concerns h
    exact hformat

private theorem checkOrStop_isKnown (h : r.checkOrStop = .error stop) :
    stop.IsKnown environment := by
  unfold checkOrStop at h
  split at h
  case h_1 => cases h
  case h_2 m hcheck =>
    cases h
    exact .misuse (check_concerns (congrArg Prod.snd hcheck))

private theorem checkOrStop_bind_isKnown {α : Type} {next : Reading → Except Stop α}
    (h : r.checkOrStop >>= next = .error stop)
    (hnext : ∀ checked, next checked = .error stop → stop.IsKnown environment) :
    stop.IsKnown environment := by
  rcases bind_eq_error h with hcheck | ⟨checked, -, hlater⟩
  · exact checkOrStop_isKnown hcheck
  · exact hnext checked hlater

private theorem not_isPlain_dashes (name : String) : ¬ IsPlain ("--" ++ name) := fun h =>
  h '-' name.toList (by simp)

private theorem option?_bestSuggestion? {c : Command} {name : String} {p : Parameter}
    (h : (bestSuggestion? name c.optionNames).bind c.option? = some p) :
    p ∈ c.options ∧ ∃ found, p.flagName? = some found := by
  obtain ⟨found, -, hfound⟩ := Option.bind_eq_some_iff.mp h
  rw [Command.option?] at hfound
  have hname := List.find?_some hfound
  exact ⟨List.mem_of_find?_eq_some hfound, found, beq_iff_eq.mp hname⟩

private theorem asValue_isApt {c : Command} {argument : String} {tip : Tip}
    (hplain : ¬ IsPlain argument)
    (h : (if c.takesFile then some (Tip.asValue argument) else none) = some tip) : tip.IsApt c := by
  split at h
  case isTrue htakes =>
    cases h
    exact .asValue htakes hplain
  case isFalse => cases h

private theorem unknownOption_concerns (r : Reading) (name : String) :
    ∃ c, (r.unknownOption name).Concerns c := by
  refine ⟨r.check.1.command, ?_⟩
  unfold unknownOption
  dsimp only
  split
  case h_1 p hp =>
    obtain ⟨hoption, found, hfound⟩ := option?_bestSuggestion? hp
    refine ⟨?_, ?_, Or.inl rfl⟩
    · rintro tip ⟨⟩
      rw [hfound]
      exact .similarArgument hoption hfound
    · rintro usage ⟨⟩
      exact Command.invocation_isPrefix_usageWith _ _
  case h_2 =>
    refine ⟨fun tip htip => asValue_isApt (not_isPlain_dashes name) htip, ?_, Or.inl rfl⟩
    rintro usage ⟨⟩
    exact Command.invocation_isPrefix_usageWith _ _

private theorem usageWithFlag_isPrefix (r : Reading) (flag : Parameter) :
    r.command.invocation.toList <+: (r.usageWithFlag flag).toList := by
  unfold usageWithFlag
  split
  · exact Command.invocation_isPrefix_usageAmongOwn _ _
  · exact Command.invocation_isPrefix_usageWith _ _

private theorem takeOption_isKnown {name : String} {value : Option String}
    (h : r.takeOption environment name value = .error stop) : stop.IsKnown environment := by
  unfold takeOption at h
  split at h
  case h_1 => exact checkOrStop_bind_isKnown h nofun
  case h_2 => exact checkOrStop_bind_isKnown h fun _ hnext => checkOrStop_isKnown hnext
  case h_3 =>
    refine checkOrStop_bind_isKnown h fun checked hnext => ?_
    cases hnext
    exact .topic (.command checked.command)
  case h_4 =>
    refine checkOrStop_bind_isKnown h fun _ hnext => ?_
    cases hnext
    exact .version
  case h_5 =>
    cases h
    exact .misuse ⟨nofun, fun usage husage => Option.some.inj husage ▸ usageWithFlag_isPrefix r _,
      Or.inl rfl⟩
  case h_6 =>
    cases h
    obtain ⟨c, hconcerns⟩ := unknownOption_concerns r name
    exact .misuse hconcerns

private theorem takeLetter_isKnown {letter : Char}
    (h : r.takeLetter environment letter = .error stop) : stop.IsKnown environment := by
  unfold takeLetter at h
  split at h
  · refine checkOrStop_bind_isKnown h fun checked hnext => ?_
    cases hnext
    exact .short checked.command
  split at h
  · refine checkOrStop_bind_isKnown h fun _ hnext => ?_
    cases hnext
    exact .version
  · cases h
    have hplain : ¬ IsPlain (String.ofList ['-', letter]) := fun h => h letter [] (by simp)
    exact .misuse (c := r.command) ⟨fun tip htip => asValue_isApt hplain htip,
      fun usage husage => Option.some.inj husage ▸ r.command.invocation_isPrefix_usage, Or.inl rfl⟩

private theorem surplus_concerns (r : Reading) (argument : String) :
    (r.surplus argument).Concerns r.command := by
  have hprefix {usage : String} (h : some r.command.usage = some usage) :
      r.command.invocation.toList <+: usage.toList :=
    Option.some.inj h ▸ r.command.invocation_isPrefix_usage
  unfold surplus
  split
  case isTrue hname =>
    refine ⟨?_, fun usage husage => hprefix husage, Or.inl rfl⟩
    rintro tip ⟨⟩
    exact .withoutDashes (by simpa using (Bool.and_eq_true_iff.mp hname).2)
  case isFalse =>
    split
    case h_1 => exact ⟨nofun, fun usage husage => hprefix husage, Or.inl rfl⟩
    case h_2 hnone =>
      refine ⟨?_, fun usage husage => hprefix husage, Or.inl rfl⟩
      rintro tip ⟨⟩
      exact .similarCommands (fun hnil => hnone hnil) fun name hname => mem_of_mem_suggestions hname

private theorem takePlain_isKnown {argument : String} (h : r.takePlain argument = .error stop) :
    stop.IsKnown environment := by
  unfold takePlain at h
  split at h
  · exact checkOrStop_bind_isKnown h nofun
  · cases h
    exact .misuse (surplus_concerns r argument)

private theorem take_isKnown {argument : String} (h : r.take environment argument = .error stop) :
    stop.IsKnown environment := by
  unfold take at h
  split at h
  · exact takePlain_isKnown h
  · split at h
    case h_1 => cases h
    case h_2 =>
      dsimp only at h
      split at h <;> exact takeOption_isKnown h
    case h_3 => exact takeLetter_isKnown h
    case h_4 =>
      split at h
      · cases h
      · exact takePlain_isKnown h

private theorem environmentLayout_concerns (h : r.environmentLayout environment = .error m)
    (c : Command) : m.Concerns c := by
  unfold environmentLayout at h
  split at h
  case h_1 value =>
    split at h
    · cases h
    · cases hvalue : layoutOf value with
      | ok l => simp [hvalue, Except.map] at h
      | error m' =>
        simp only [hvalue, Except.map, Except.error.injEq] at h
        exact h ▸ layoutOf_concerns hvalue c
  case h_2 => cases h

private theorem conclude_isKnown (h : r.conclude environment = .error stop) :
    stop.IsKnown environment := by
  refine checkOrStop_bind_isKnown h fun checked hnext => ?_
  split at hnext
  case h_1 hlayout =>
    cases hnext
    exact .misuse (environmentLayout_concerns hlayout checked.command)
  case h_2 =>
    split at hnext
    · cases hnext
      refine .misuse (c := checked.command) ⟨nofun, ?_, Or.inl rfl⟩
      rintro usage ⟨⟩
      exact Command.invocation_isPrefix_usageWith _ _
    · cases hnext

end Reading

open Reading

variable {environment : Option String} {stop : Stop} {m : Misuse}

private theorem topicOf_concerns {topic : HelpTopic} {words : List String}
    (h : topicOf topic words = .error m) : ∃ c, m.Concerns c := by
  induction topic, words using topicOf.induct with
  | case1 => cases h
  | case2 rest ih | case3 rest ih | case4 rest ih =>
    rw [topicOf] at h
    exact ih h
  | case5 c name rest hrepl htokenize hhelp =>
    rw [topicOf] at h
    · cases h
      refine ⟨c, nofun, ?_, Or.inl rfl⟩
      rintro usage ⟨⟩
      exact c.invocation_isPrefix_usage
    all_goals assumption
  | case6 name rest =>
    rw [topicOf] at h
    cases h
    refine ⟨.scanner, nofun, ?_, Or.inr rfl⟩
    rintro usage ⟨⟩
    decide

private theorem readArguments_isKnown {r : Reading} {arguments : List String}
    (h : readArguments environment r arguments = .error stop) : stop.IsKnown environment := by
  induction arguments generalizing r stop with
  | nil => exact conclude_isKnown h
  | cons argument rest ih =>
    rw [readArguments] at h
    split at h
    · split at h
      · split at h
        case h_1 topic _ =>
          cases h
          exact .topic topic
        case h_2 m' htopic =>
          cases h
          obtain ⟨c, hconcerns⟩ := topicOf_concerns htopic
          exact .misuse hconcerns
      · rcases bind_eq_error h with hinner | ⟨inner, -, h⟩
        · exact ih hinner
        · rcases bind_eq_error h with houter | ⟨outer, -, h⟩
          · exact conclude_isKnown houter
          · cases h
    · rcases bind_eq_error h with htake | ⟨next, -, hnext⟩
      · exact take_isKnown htake
      · exact ih hnext

/-- What is shown where a command line is not accepted. -/
theorem isKnown_of_read_eq_error {arguments : List String}
    (h : read environment arguments = .error stop) : stop.IsKnown environment :=
  readArguments_isKnown h

end LoxLexis.CommandLine
