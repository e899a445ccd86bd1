import LoxLexis.Files.FileTree
import Mathlib.Data.String.Basic
import Mathlib.Tactic.SplitIfs

/-! What stands at the end of a path. -/
namespace LoxLexis.FileTree

private theorem splitOnAux_slash (done name rest : List Char) (names : List String) :
    (String.ofList (done ++ name ++ rest)).splitOnAux "/" ⟨String.utf8Len done⟩
      ⟨String.utf8Len done + String.utf8Len name⟩ 0 names =
      names.reverse ++ (rest.splitOnPPrepend (· == '/') name.reverse).map String.ofList := by
  induction rest generalizing done name names with
  | nil =>
    have hend := (String.atEnd_of_valid (done ++ name) []).mpr rfl
    have hname := String.extract_of_valid done name []
    rw [String.utf8Len_append] at hend
    unfold String.splitOnAux
    rw [if_pos hend, hname]
    simp
  | cons c rest ih =>
    have hend := mt (String.atEnd_of_valid (done ++ name) (c :: rest)).mp (List.cons_ne_nil _ _)
    have hname := String.extract_of_valid done name (c :: rest)
    have hget := String.get_of_valid (done ++ name) (c :: rest)
    have hnext := String.next_of_valid (done ++ name) c rest
    rw [String.utf8Len_append] at hend hget hnext
    unfold String.splitOnAux
    rw [if_neg hend, hget, hnext, List.headD_cons, List.splitOnPPrepend_cons_eq_if]
    by_cases hc : c = '/'
    · subst hc
      have hslash : String.Pos.Raw.get "/" 0 = '/' := rfl
      have hstep : String.Pos.Raw.next "/" 0 = ⟨1⟩ := rfl
      have hover : String.Pos.Raw.atEnd "/" ⟨1⟩ = true := rfl
      simp only [hslash, hstep, hover, beq_self_eq_true, if_true]
      have hback : (⟨String.utf8Len done + String.utf8Len name + '/'.utf8Size⟩ :
          String.Pos.Raw).unoffsetBy ⟨1⟩ = ⟨String.utf8Len done + String.utf8Len name⟩ := rfl
      have hrest := ih (done ++ name ++ ['/']) [] (String.ofList name :: names)
      simp only [String.utf8Len_append, String.utf8Len_cons, String.utf8Len_nil, Nat.add_zero,
        Nat.zero_add, ← Nat.add_assoc, List.append_nil, List.append_assoc,
        List.singleton_append] at hrest
      rw [hback, hname]
      simp only [List.append_assoc, hrest]
      simp
    · have hslash : (c == String.Pos.Raw.get "/" 0) = false := beq_false_of_ne hc
      have hback : (⟨String.utf8Len done + String.utf8Len name⟩ : String.Pos.Raw).unoffsetBy 0 =
          ⟨String.utf8Len done + String.utf8Len name⟩ := rfl
      have hrest := ih done (name ++ [c]) names
      simp only [String.utf8Len_append, String.utf8Len_cons, String.utf8Len_nil, Nat.zero_add,
        ← Nat.add_assoc, List.append_assoc, List.singleton_append, List.reverse_append,
        List.reverse_singleton] at hrest
      simp only [hslash, Bool.false_eq_true, if_false, beq_false_of_ne hc, hback, hnext]
      simp only [List.append_assoc, hrest]

private theorem splitOn_slash (path : String) :
    path.splitOn "/" = (path.toList.splitOn '/').map String.ofList := by
  have h := splitOnAux_slash [] [] path.toList []
  simp at h
  rw [List.splitOn_eq_splitOnP]
  exact h

/-- A name that something in a tree can have. -/
structure IsName (name : String) : Prop where
  ne_empty : name ≠ ""
  ne_here : name ≠ "."
  ne_up : name ≠ ".."
  slash_not_mem : '/' ∉ name.toList
  short : name.utf8ByteSize ≤ maxNameBytes

private theorem splitOn_intercalate_slash {names : List String} (hne : names ≠ [])
    (h : ∀ name ∈ names, IsName name) : ("/".intercalate names).splitOn "/" = names := by
  have hslash : ∀ name ∈ names.map String.toList, '/' ∉ name := by
    intro text htext
    obtain ⟨name, hname, rfl⟩ := List.mem_map.mp htext
    exact (h name hname).slash_not_mem
  have hsplit := List.splitOn_intercalate '/' hslash (by simpa using hne)
  have hsingle : "/".toList = ['/'] := rfl
  rw [splitOn_slash, String.toList_intercalate, hsingle, hsplit, List.map_map]
  simp [Function.comp_def]

variable {t : FileTree}

private theorem follow_eq_ok_iff {names : List String} {name : String} {place : FilePlace}
    (h : IsName name) : t.follow (.below names) name = .ok place ↔
      t.node? names = some .directory ∧ (t.node? (names ++ [name])).isSome = true ∧
        .below (names ++ [name]) = place := by
  have hshort : ¬ maxNameBytes < name.utf8ByteSize := Nat.not_lt.mpr h.short
  unfold follow
  dsimp only
  generalize t.node? names = found
  rcases found with _ | (_ | _)
  · simp
  · simp
  · rw [if_neg (by simp [h.ne_empty, h.ne_here]), if_neg h.ne_up, if_neg hshort]
    cases hnext : t.node? (names ++ [name]) <;> simp

/-- Names lead down the tree, by directories only. -/
theorem foldlM_follow_eq_ok_iff {before names : List String} {place : FilePlace}
    (h : ∀ name ∈ names, IsName name) : names.foldlM t.follow (.below before) = .ok place ↔
      (∀ front, front <+: names → front ≠ names → t.node? (before ++ front) = some .directory) ∧
      (names ≠ [] → (t.node? (before ++ names)).isSome = true) ∧
      .below (before ++ names) = place := by
  induction names generalizing before with
  | nil => simp [pure, Except.pure]
  | cons name rest ih =>
    have hname := h name List.mem_cons_self
    have hrest := @ih (before ++ [name]) fun n hn => h n (List.mem_cons_of_mem _ hn)
    simp only [List.append_assoc, List.singleton_append] at hrest
    rw [List.foldlM_cons]
    constructor
    · intro hfold
      cases hfollow : t.follow (.below before) name with
      | error e =>
        rw [hfollow] at hfold
        cases hfold
      | ok next =>
        rw [hfollow] at hfold
        obtain ⟨hdirectory, hnext, rfl⟩ := (follow_eq_ok_iff hname).mp hfollow
        obtain ⟨hfronts, hlast, rfl⟩ := hrest.mp hfold
        refine ⟨fun front hfront hne => ?_, fun _ => ?_, rfl⟩
        · rcases List.prefix_cons_iff.mp hfront with rfl | ⟨front, rfl, hprefix⟩
          · rwa [List.append_nil]
          · exact hfronts front hprefix fun heq => hne (heq ▸ rfl)
        · cases rest with
          | nil => exact hnext
          | cons => exact hlast (List.cons_ne_nil _ _)
    · rintro ⟨hfronts, hlast, rfl⟩
      have hdirectory := hfronts [] List.nil_prefix (List.cons_ne_nil _ _).symm
      rw [List.append_nil] at hdirectory
      have hnext : (t.node? (before ++ [name])).isSome = true := by
        cases rest with
        | nil => exact hlast (List.cons_ne_nil _ _)
        | cons next rest =>
          rw [hfronts [name] (by simp) (by simp)]
          rfl
      rw [(follow_eq_ok_iff hname).mpr ⟨hdirectory, hnext, rfl⟩]
      refine hrest.mpr ⟨fun front hfront hne => ?_, fun _ => hlast (List.cons_ne_nil _ _), rfl⟩
      exact hfronts (name :: front) (List.cons_prefix_cons.mpr ⟨rfl, hfront⟩) (by simpa using hne)

private theorem head?_intercalate_ne {names : List String} (hne : names ≠ [])
    (h : ∀ name ∈ names, IsName name) :
    ∃ c rest, ("/".intercalate names).toList = c :: rest ∧ c ≠ '/' := by
  obtain ⟨name, names, rfl⟩ := List.exists_cons_of_ne_nil hne
  have hname := h name List.mem_cons_self
  obtain ⟨c, rest, hlist⟩ := List.exists_cons_of_ne_nil
    (show name.toList ≠ [] by simpa using hname.ne_empty)
  have hc : c ≠ '/' := by
    rintro rfl
    exact hname.slash_not_mem (hlist ▸ List.mem_cons_self)
  by_cases hnames : names = []
  · subst hnames
    exact ⟨c, rest, by rw [String.intercalate_singleton, hlist], hc⟩
  · rw [String.intercalate_cons_of_ne_nil hnames]
    simp only [String.toList_append, hlist, List.cons_append]
    exact ⟨c, _, rfl, hc⟩

/-- What can be read by a path of names, with a slash between any two. -/
theorem readBytes_intercalate_iff {names : List String} {bytes : List UInt8} (hne : names ≠ [])
    (h : ∀ name ∈ names, IsName name)
    (hshort : ("/".intercalate names).utf8ByteSize ≤ maxPathBytes) :
    t.readBytes ("/".intercalate names) = .ok bytes ↔ t.node? names = some (.file bytes) ∧
      ∀ front, front <+: names → front ≠ names → t.node? front = some .directory := by
  obtain ⟨c, rest, hlist, hc⟩ := head?_intercalate_ne hne h
  have hresolve : t.resolve ("/".intercalate names) = names.foldlM t.follow (.below []) := by
    have hsome : ("/".intercalate names).isEmpty = false := by
      rw [String.isEmpty_eq_false_iff]
      intro hnone
      rw [hnone] at hlist
      cases hlist
    have hstart : ¬ (("/".intercalate names).toList.head? = some '/') := by simp [hlist, hc]
    rw [resolve, hsome, if_neg (Nat.not_lt.mpr hshort), if_neg hstart,
      splitOn_intercalate_slash hne h]
    rfl
  have hplace (place : FilePlace) : names.foldlM t.follow (.below []) = .ok place ↔ _ :=
    foldlM_follow_eq_ok_iff h
  simp only [List.nil_append] at hplace
  rw [readBytes, hresolve]
  constructor
  · intro hread
    cases hfold : names.foldlM t.follow (.below []) with
    | error e =>
      rw [hfold] at hread
      cases hread
    | ok place =>
      obtain ⟨hfronts, -, rfl⟩ := (hplace place).mp hfold
      rw [hfold] at hread
      refine ⟨?_, hfronts⟩
      dsimp only at hread
      generalize t.node? names = found at hread
      rcases found with _ | _ | _ <;> cases hread
      rfl
  · rintro ⟨hnode, hfronts⟩
    rw [(hplace (.below names)).mpr ⟨hfronts, fun _ => by rw [hnode]; rfl, rfl⟩]
    dsimp only
    rw [hnode]

/-- There is what the entries are, and what lies on the way to them. -/
theorem isSome_node?_iff {names : List String} :
    (t.node? names).isSome = true ↔ names = [] ∨ ∃ entry ∈ t.entries, names <+: entry.1 := by
  unfold node?
  split
  case h_1 place node hfind =>
    have hplace : place = names := by simpa using List.find?_some hfind
    refine iff_of_true rfl (Or.inr ⟨_, List.mem_of_find?_eq_some hfind, ?_⟩)
    exact hplace ▸ List.prefix_rfl
  case h_2 =>
    split
    case isTrue hany => exact iff_of_true rfl (by simpa using hany)
    case isFalse hnone => exact iff_of_false nofun (by simpa using hnone)

private theorem isSome_node?_of_isPrefix {front names : List String} (hfront : front <+: names)
    (h : (t.node? names).isSome = true) : (t.node? front).isSome = true := by
  rcases isSome_node?_iff.mp h with rfl | ⟨entry, hentry, hprefix⟩
  · rwa [List.prefix_nil.mp hfront]
  · exact isSome_node?_iff.mpr (Or.inr ⟨entry, hentry, hfront.trans hprefix⟩)

private theorem isSome_node?_of_follow {names last : List String} {name : String}
    (h : t.follow (.below names) name = .ok (.below last)) : (t.node? last).isSome = true := by
  unfold follow at h
  dsimp only at h
  split at h
  case h_1 | h_2 => cases h
  case h_3 hdirectory =>
    split_ifs at h with _ _ _ _ hnone
    · cases h
      rw [hdirectory]
      rfl
    · cases h
    · cases h
      exact isSome_node?_of_isPrefix (List.dropLast_prefix _) (by rw [hdirectory]; rfl)
    · cases h
      simpa [Option.isSome_iff_ne_none] using hnone

private theorem follow_outside {name : String} {place : FilePlace}
    (h : t.follow .outside name = .ok place) : place = .outside := by
  unfold follow at h
  dsimp only at h
  split_ifs at h
  cases h
  rfl

private theorem isSome_node?_of_foldlM {place : FilePlace} {names last : List String}
    (hplace : ∀ start, place = .below start → (t.node? start).isSome = true)
    (h : names.foldlM t.follow place = .ok (.below last)) : (t.node? last).isSome = true := by
  induction names generalizing place with
  | nil =>
    cases h
    exact hplace last rfl
  | cons name rest ih =>
    rw [List.foldlM_cons] at h
    cases hfollow : t.follow place name with
    | error e =>
      rw [hfollow] at h
      cases h
    | ok next =>
      rw [hfollow] at h
      refine ih ?_ h
      rintro start rfl
      cases place with
      | outside => cases follow_outside hfollow
      | below names => exact isSome_node?_of_follow hfollow

/-- A path that can be followed leads to something that there is. -/
theorem isSome_node?_of_resolve {path : String} {names : List String}
    (h : t.resolve path = .ok (.below names)) : (t.node? names).isSome = true := by
  unfold resolve at h
  split at h
  · cases h
  · split at h
    · cases h
    · refine isSome_node?_of_foldlM ?_ h
      intro start hstart
      split at hstart
      · cases hstart
      · cases hstart
        exact isSome_node?_iff.mpr (Or.inl rfl)

private theorem mem_of_follow_eq_error {place : FilePlace} {name : String} {e : ReadError}
    (h : t.follow place name = .error e) : e ∈ [.missing, .notDirectory, .nameTooLong] := by
  unfold follow at h
  split at h
  · split_ifs at h <;> cases h <;> simp
  · split at h
    · cases h
      simp
    · cases h
      simp
    · split_ifs at h <;> cases h <;> simp

private theorem mem_of_foldlM_eq_error {place : FilePlace} {names : List String} {e : ReadError}
    (h : names.foldlM t.follow place = .error e) : e ∈ [.missing, .notDirectory, .nameTooLong] := by
  induction names generalizing place with
  | nil => cases h
  | cons name rest ih =>
    rw [List.foldlM_cons] at h
    cases hfollow : t.follow place name with
    | error e' =>
      rw [hfollow] at h
      cases h
      exact mem_of_follow_eq_error hfollow
    | ok next =>
      rw [hfollow] at h
      exact ih h

/-- Why a path can be followed to no place. -/
theorem mem_of_resolve_eq_error {path : String} {e : ReadError} (h : t.resolve path = .error e) :
    e ∈ [.missing, .notDirectory, .nameTooLong] := by
  unfold resolve at h
  split at h
  · cases h
    simp
  · split at h
    · cases h
      simp
    · exact mem_of_foldlM_eq_error h

/-- What is at a path is read, or it is a directory, or there is no way to it. -/
theorem readBytes_cases (t : FileTree) (path : String) :
    (∃ bytes, t.readBytes path = .ok bytes) ∨ t.readBytes path = .error .isDirectory ∨
      ∃ e, t.resolve path = .error e ∧ t.readBytes path = .error e := by
  unfold readBytes
  split
  case h_1 e hresolve => exact Or.inr (Or.inr ⟨e, hresolve, rfl⟩)
  case h_2 => exact Or.inr (Or.inl rfl)
  case h_3 names hresolve =>
    have hnode := isSome_node?_of_resolve hresolve
    generalize t.node? names = found at hnode
    rcases found with _ | bytes | _
    · cases hnode
    · exact Or.inl ⟨bytes, rfl⟩
    · exact Or.inr (Or.inl rfl)

/-- What is read at a path is an entry. -/
theorem exists_entry_of_readBytes {path : String} {bytes : List UInt8}
    (h : t.readBytes path = .ok bytes) : ∃ names, (names, FileNode.file bytes) ∈ t.entries := by
  unfold readBytes at h
  split at h
  case h_1 | h_2 => cases h
  case h_3 names _ =>
    split at h
    case h_1 hnode =>
      cases h
      unfold node? at hnode
      split at hnode
      case h_1 hfind =>
        cases hnode
        exact ⟨_, List.mem_of_find?_eq_some hfind⟩
      case h_2 =>
        split_ifs at hnode
        cases hnode
    case h_2 | h_3 => cases h

end LoxLexis.FileTree
