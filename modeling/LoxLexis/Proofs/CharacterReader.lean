import LoxLexis.Proofs.MaximalMunch

/-! The faults of a scan, found character by character by a reader who knows no lexemes. -/
namespace LoxLexis

/-- All that the reader keeps in mind. -/
inductive Reader where
  | code
  | string
  | comment
  deriving DecidableEq, Repr

namespace Reader

/-- The state after one character, two slashes in code apart. -/
def step : Reader → Char → Reader
  | .code, c => if c = '"' then .string else .code
  | .string, c => if c = '"' then .code else .string
  | .comment, c => if c = '\n' then .code else .comment

/-- Each character with the state in which it is read. Two slashes in code are read at once. -/
def reads : Reader → List Char → List (Reader × Char)
  | .code, '/' :: '/' :: rest => (.code, '/') :: (.code, '/') :: reads .comment rest
  | r, c :: rest => (r, c) :: reads (r.step c) rest
  | _, [] => []

def last : Reader → List Char → Reader
  | .code, '/' :: '/' :: rest => last .comment rest
  | r, c :: rest => last (r.step c) rest
  | r, [] => r

def isLegal (c : Char) : Bool := c.isAlphanum || "_(){}+-*/!=><,.;\" \t\r\n".toList.contains c

/-- A fault for each character without a use that is read in code, where a text stands before. -/
def strays : List Char → List (Reader × Char) → List Fault
  | _, [] => []
  | before, (r, c) :: rest =>
    if r = .code ∧ isLegal c = false then
      .unexpectedCharacter c (lineAfter before) :: strays (before ++ [c]) rest
    else strays (before ++ [c]) rest

/-- The fault of a text that ends within a string. -/
def unclosed (source : List Char) : Reader → List Fault
  | .string => [.unterminatedString (lineAfter source)]
  | .code | .comment => []

/-- Every character read in code has a use, and no string is open at the end. -/
def Clean (source : List Char) : Prop :=
  ((reads .code source).all fun p => p.1 != .code || isLegal p.2) ∧ last .code source ≠ .string

/-- All faults of a text that is read from the given state after another text. -/
def found (r : Reader) (before text : List Char) : List Fault :=
  strays before (reads r text) ++ unclosed (before ++ text) (last r text)

private theorem found_slashes (before rest : List Char) :
    found .code before ('/' :: '/' :: rest) = found .comment (before ++ ['/', '/']) rest := by
  have hl : isLegal '/' = true := by decide
  simp [found, reads, last, strays, hl]

/-- One character, unless it and the next are slashes in code. -/
theorem reads_cons {r : Reader} {c : Char} {rest : List Char}
    (h : r = .code → c = '/' → rest.head? ≠ some '/') :
    reads r (c :: rest) = (r, c) :: reads (r.step c) rest ∧
      last r (c :: rest) = last (r.step c) rest := by
  have hne (tail : List Char) (hr : r = .code) (hc : c = '/') (ht : rest = '/' :: tail) : False :=
    h hr hc (by rw [ht]; rfl)
  exact ⟨reads.eq_2 r c rest hne, last.eq_2 r c rest hne⟩

private theorem found_cons {r : Reader} {c : Char} {rest : List Char}
    (h : r = .code → c = '/' → rest.head? ≠ some '/') (before : List Char) :
    found r before (c :: rest) =
      (if r = .code ∧ isLegal c = false then [.unexpectedCharacter c (lineAfter before)] else []) ++
        found (r.step c) (before ++ [c]) rest := by
  obtain ⟨hr, hl⟩ := reads_cons h
  simp only [found, hr, hl, strays]
  split <;> simp

private theorem found_append {r : Reader} {piece rest : List Char}
    (h : ∀ c ∈ piece, r.step c = r ∧ (r = .code → isLegal c = true ∧ c ≠ '/'))
    (before : List Char) :
    found r before (piece ++ rest) = found r (before ++ piece) rest := by
  induction piece generalizing before with
  | nil => simp
  | cons c piece ih =>
    obtain ⟨hstep, hcode⟩ := h c List.mem_cons_self
    have hif : ¬ (r = .code ∧ isLegal c = false) := fun ⟨hr, hl⟩ => by
      rw [(hcode hr).1] at hl
      cases hl
    rw [List.cons_append, found_cons (fun hr hc => absurd hc (hcode hr).2), if_neg hif, hstep,
      ih fun d hd => h d (List.mem_cons_of_mem _ hd)]
    simp

private theorem found_string_body {body : List Char} (h : '"' ∉ body) (before rest : List Char) :
    found .string before (body ++ rest) = found .string (before ++ body) rest := by
  refine found_append (fun c hc => ⟨?_, by simp⟩) before
  have hne : c ≠ '"' := by
    rintro rfl
    exact h hc
  simp [step, hne]

private theorem found_comment_body {body : List Char} (h : '\n' ∉ body) (before rest : List Char) :
    found .comment before (body ++ rest) = found .comment (before ++ body) rest := by
  refine found_append (fun c hc => ⟨?_, by simp⟩) before
  have hne : c ≠ '\n' := by
    rintro rfl
    exact h hc
  simp [step, hne]

private theorem found_comment_end {rest : List Char} (h : ∀ c ∈ rest.head?, c = '\n')
    (before : List Char) : found .comment before rest = found .code before rest := by
  cases rest with
  | nil => rfl
  | cons c rest =>
    obtain rfl : c = '\n' := h c rfl
    have hl : isLegal '\n' = true := by decide
    rw [found_cons (by simp), found_cons (by simp)]
    simp [hl, step]

/-- A character that leaves the reader in code. -/
def isPlain (c : Char) : Bool := isLegal c && c != '/' && c != '"'

private theorem isPlain_of_part {c : Char} (h : c.isAlphanum ∨ c = '_') : isPlain c = true := by
  rcases h with h | rfl
  · have hl : isLegal c = true := by simp [isLegal, h]
    have hne (d : Char) (hd : d.isAlphanum = false) : c ≠ d := by
      rintro rfl
      rw [h] at hd
      cases hd
    simp [isPlain, hl, hne '/' rfl, hne '"' rfl]
  · decide

private theorem isPlain_of_digits {text : List Char} (h : Digits text) {c : Char} (hc : c ∈ text) :
    isPlain c = true := by
  have hd := h.2 c hc
  exact isPlain_of_part (Or.inl (by simp [Char.isAlphanum, hd]))

private theorem isPlain_of_mark {m : Mark} (h : m ≠ .slash) {c : Char} (hc : c ∈ m.spelling) :
    isPlain c = true := by
  have hall : m.spelling.all isPlain = true := by
    cases m with
    | slash => exact absurd rfl h
    | _ => decide
  exact List.all_eq_true.mp hall c hc

private theorem found_of_isPlain {piece : List Char} (h : ∀ c ∈ piece, isPlain c = true)
    (before rest : List Char) :
    found .code before (piece ++ rest) = found .code (before ++ piece) rest := by
  refine found_append (fun c hc => ?_) before
  have hp := h c hc
  simp only [isPlain, Bool.and_eq_true, bne_iff_ne] at hp
  exact ⟨if_neg hp.2, fun _ => hp.1⟩

private theorem exists_spells_of_isLegal {c : Char} (h : isLegal c = true) (hq : c ≠ '"') :
    ∃ k, Spells k [c] := by
  by_cases hw : c.isAlpha ∨ c = '_'
  · exact ⟨_, .word (.mk hw (by simp))⟩
  by_cases hd : c.isDigit = true
  · exact ⟨_, .integer ⟨List.cons_ne_nil _ _, by simpa using hd⟩⟩
  have htable : ∀ d ∈ "_(){}+-*/!=><,.;\" \t\r\n".toList,
      d = '_' ∨ d = '"' ∨ Alphabet.isBlank d = true ∨ (Mark.ofChar? d).isSome = true :=
    List.forall_iff_forall_mem.mp (by decide)
  have hmem : c ∈ "_(){}+-*/!=><,.;\" \t\r\n".toList := by
    simp only [isLegal, Bool.or_eq_true, List.contains_iff_mem] at h
    refine h.resolve_left fun ha => ?_
    rcases Bool.or_eq_true_iff.mp ha with ha | ha
    · exact hw (Or.inl ha)
    · exact hd ha
  rcases htable c hmem with rfl | rfl | hb | hm
  · exact absurd (Or.inr rfl) hw
  · exact absurd rfl hq
  · exact ⟨_, .blank (Alphabet.isBlank_iff.mp hb)⟩
  · obtain ⟨m, hm⟩ := Option.isSome_iff_exists.mp hm
    have hspelled := Spells.mark m
    rw [Mark.spelling_of_ofChar? hm] at hspelled
    exact ⟨_, hspelled⟩

end Reader

open Reader

/-- One lexeme leaves the reader in code, with no fault found. -/
theorem IsLongest.found_eq {k : Category} {piece rest : List Char} (h : IsLongest k piece rest)
    (before : List Char) :
    found .code before (piece ++ rest) = found .code (before ++ piece) rest := by
  cases h.spells with
  | blank hb =>
    refine found_of_isPlain (fun d hd => ?_) before rest
    obtain rfl := List.mem_singleton.mp hd
    rcases hb with rfl | rfl | rfl | rfl <;> decide
  | integer hw => exact found_of_isPlain (fun d hd => isPlain_of_digits hw hd) before rest
  | decimal hw hf =>
    refine found_of_isPlain (fun d hd => ?_) before rest
    rcases List.mem_append.mp hd with hd | hd
    · exact isPlain_of_digits hw hd
    · rcases List.mem_cons.mp hd with rfl | hd
      · decide
      · exact isPlain_of_digits hf hd
  | word hw => exact found_of_isPlain (fun d hd => isPlain_of_part (hw.part hd)) before rest
  | @string body hb =>
    have hopen : found .code before ('"' :: (body ++ '"' :: rest)) =
        found .string (before ++ ['"']) (body ++ '"' :: rest) := by
      rw [found_cons (by simp)]
      rfl
    have hclose : found .string (before ++ ['"'] ++ body) ('"' :: rest) =
        found .code (before ++ ['"'] ++ body ++ ['"']) rest := by
      rw [found_cons (by simp)]
      rfl
    simpa using hopen.trans ((found_string_body hb _ _).trans hclose)
  | @comment body hb =>
    have hbody := found_comment_body hb (before ++ ['/', '/']) rest
    simpa [found_slashes, found_comment_end h.comment_end] using hbody
  | mark m =>
    by_cases hm : m = .slash
    · subst hm
      have hl : isLegal '/' = true := by decide
      have hone := found_cons (r := .code) (c := '/') (fun _ _ => h.slash_end) before
      simpa [hl, step, Mark.spelling] using hone
    · exact found_of_isPlain (fun c hc => isPlain_of_mark hm hc) before rest

/-- From one lexeme to the next, the faults of a derivation are those that the reader finds. -/
theorem Munch.faults_eq {before text : List Char} {pieces : List (List Char)}
    {tokens : List Token} {faults : List Fault} (h : Munch before text pieces tokens faults) :
    faults = found .code before text := by
  induction h with
  | done => rfl
  | token hl _ _ ih | gap hl _ _ ih => rw [ih, hl.found_eq]
  | @openString before rest hu =>
    have hopen : found .code before ('"' :: rest) = found .string (before ++ ['"']) rest := by
      rw [found_cons (by simp)]
      rfl
    have hbody := found_string_body hu.quote_not_mem (before ++ ['"']) []
    rw [hopen, ← List.append_nil rest, hbody]
    simp [found, reads, last, strays, unclosed]
  | @stray before rest pieces tokens faults c hu hq _ ih =>
    have hl : isLegal c = false := by
      rw [← Bool.not_eq_true]
      intro hl
      obtain ⟨k, hs⟩ := exists_spells_of_isLegal hl hq
      exact hu k [c] hs ⟨rest, rfl⟩
    have hslash : c ≠ '/' := by
      rintro rfl
      exact absurd hl (by decide)
    rw [found_cons (fun _ hc => absurd hc hslash), if_pos ⟨rfl, hl⟩, ih, step, if_neg hq]
    rfl

namespace Reader

theorem strays_eq_nil_iff (before : List Char) (l : List (Reader × Char)) :
    strays before l = [] ↔ l.all fun p => p.1 != .code || isLegal p.2 := by
  induction l generalizing before with
  | nil => simp [strays]
  | cons p l ih =>
    obtain ⟨r, c⟩ := p
    by_cases hr : r = .code <;> cases hl : isLegal c <;> simp [strays, hr, hl, ih]

theorem isUnterminated_of_mem_strays {before : List Char} {l : List (Reader × Char)} {f : Fault}
    (h : f ∈ strays before l) : f.isUnterminated = false := by
  induction l generalizing before with
  | nil => cases h
  | cons p l ih =>
    obtain ⟨r, c⟩ := p
    rw [strays] at h
    split at h
    · rcases List.mem_cons.mp h with rfl | h
      · rfl
      · exact ih h
    · exact ih h

theorem found_eq_nil_iff (source : List Char) : found .code [] source = [] ↔ Clean source := by
  rw [found, List.append_eq_nil_iff, strays_eq_nil_iff, Clean]
  refine and_congr_right fun _ => ?_
  cases last .code source <;> simp [unclosed]

theorem dropLast_found (r : Reader) (before text : List Char) :
    (found r before text).dropLast.any Fault.isUnterminated = false := by
  have hstrays : (strays before (reads r text)).any Fault.isUnterminated = false := by
    rw [List.any_eq_false]
    intro f hf
    rw [isUnterminated_of_mem_strays hf]
    exact Bool.false_ne_true
  rw [found]
  cases last r text with
  | string => rwa [unclosed, List.dropLast_concat]
  | code | comment =>
    rw [unclosed, List.append_nil, List.any_eq_false]
    exact fun f hf => List.any_eq_false.mp hstrays f (List.dropLast_subset _ hf)

end Reader

/-- The faults of a scan are those that the reader finds: a stray character for each character
without a use that is read in code, then an unclosed string if one is open at the end. Only the
last can be of the second sort, and tokenizing succeeds just where the reader finds nothing. -/
theorem scan_faults_eq_found (source : String) :
    (scan source).faults =
        strays [] (reads .code source.toList) ++
          unclosed source.toList (last .code source.toList) ∧
      (scan source).faults.dropLast.any Fault.isUnterminated = false ∧
      (∀ tokens, tokenize source = .ok tokens ↔
        Clean source.toList ∧ tokens = (scan source).tokens) ∧
      ∀ faults, tokenize source = .error faults ↔
        ¬ Clean source.toList ∧ faults = (scan source).faults := by
  obtain ⟨tokens, -, hm⟩ := munch_scan source
  have hfaults : (scan source).faults = found .code [] source.toList := hm.faults_eq
  have hclean := found_eq_nil_iff source.toList
  rw [← hfaults] at hclean
  have hok (hc : Clean source.toList) : tokenize source = .ok (scan source).tokens := by
    simp [tokenize, hclean.mpr hc]
  have herror (hc : ¬ Clean source.toList) : tokenize source = .error (scan source).faults := by
    simp [tokenize, mt hclean.mp hc]
  refine ⟨hfaults, by rw [hfaults]; exact dropLast_found _ _ _, fun tokens => ?_, fun faults => ?_⟩
  · by_cases hc : Clean source.toList
    · rw [hok hc, Except.ok.injEq, eq_comm, and_iff_right hc]
    · simp [herror hc, hc]
  · by_cases hc : Clean source.toList
    · simp [hok hc, hc]
    · rw [herror hc, Except.error.injEq, eq_comm, and_iff_right hc]

end LoxLexis
