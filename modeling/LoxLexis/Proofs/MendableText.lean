import LoxLexis.Proofs.CharacterReader
import LoxLexis.Proofs.TrailingTerminators

/-! Which faulty texts can be mended by more text behind them. -/
namespace LoxLexis

namespace Reader
variable {r : Reader} {text more : List Char}

private theorem reads_isPrefix (r : Reader) (text more : List Char) :
    reads r text <+: reads r (text ++ more) := by
  fun_induction reads r text with
  | case1 rest ih =>
    rw [List.cons_append, List.cons_append, reads]
    exact List.cons_prefix_cons.mpr ⟨rfl, List.cons_prefix_cons.mpr ⟨rfl, ih⟩⟩
  | case2 r c rest hne ih =>
    by_cases hslash : r = .code ∧ c = '/' ∧ (rest ++ more).head? = some '/'
    · obtain ⟨rfl, rfl, hhead⟩ := hslash
      obtain ⟨tail, htail⟩ := List.head?_eq_some_iff.mp hhead
      obtain rfl : rest = [] := by
        refine List.eq_nil_iff_forall_not_mem.mpr fun d hd => ?_
        obtain ⟨d, rest, rfl⟩ := List.exists_cons_of_ne_nil (List.ne_nil_of_mem hd)
        exact hne rest rfl rfl (by rw [(List.cons.inj htail).1])
      rw [List.cons_append, htail, reads]
      exact List.cons_prefix_cons.mpr ⟨rfl, List.nil_prefix⟩
    · have hstep := @reads_cons r c (rest ++ more)
        fun hr hc hd => hslash ⟨hr, hc, hd⟩
      rw [List.cons_append, hstep.1]
      exact List.cons_prefix_cons.mpr ⟨rfl, ih⟩
  | case3 => exact List.nil_prefix

/-- Text that does not begin with a slash is read on from where the reader is. -/
theorem reads_append (h : last r text = .code → more.head? ≠ some '/') :
    reads r (text ++ more) = reads r text ++ reads (last r text) more ∧
      last r (text ++ more) = last (last r text) more := by
  fun_induction last r text with
  | case1 rest ih =>
    obtain ⟨hreads, hlast⟩ := ih h
    simp [reads, last, hreads, hlast]
  | case2 r c rest hne ih =>
    have hslash (hr : r = .code) (hc : c = '/') : (rest ++ more).head? ≠ some '/' := by
      subst hr hc
      cases rest with
      | nil => exact h rfl
      | cons d rest =>
        intro hd
        exact hne rest rfl rfl (by rw [Option.some.inj hd])
    obtain ⟨hreads, hlast⟩ := ih h
    obtain ⟨hr, hl⟩ := reads_cons hslash
    rw [List.cons_append, hr, hl, hreads, hlast, reads.eq_2 r c rest hne]
    exact ⟨rfl, rfl⟩
  | case3 r => simp [reads]

private theorem strays_isPrefix {read longer : List (Reader × Char)} (h : read <+: longer)
    (before : List Char) : strays before read <+: strays before longer := by
  induction read generalizing before longer with
  | nil => exact List.nil_prefix
  | cons p read ih =>
    obtain ⟨more, rfl⟩ := h
    have hrest := ih (List.prefix_append read more) (before ++ [p.2])
    rw [List.cons_append, strays, strays]
    split
    · exact List.cons_prefix_cons.mpr ⟨rfl, hrest⟩
    · exact hrest

private theorem eq_of_mem_unclosed {source : List Char} {f : Fault} (h : f ∈ unclosed source r) :
    f = .unterminatedString (lineAfter source) := by
  cases r with
  | string => exact List.mem_singleton.mp h
  | code | comment => cases h

private theorem all_found_iff (r : Reader) (before text : List Char) :
    (found r before text).all Fault.isUnterminated = true ↔ strays before (reads r text) = [] := by
  rw [found, List.all_append, Bool.and_eq_true]
  constructor
  · rintro ⟨hall, -⟩
    refine List.eq_nil_iff_forall_not_mem.mpr fun f hf => ?_
    have htrue := List.all_eq_true.mp hall f hf
    rw [isUnterminated_of_mem_strays hf] at htrue
    cases htrue
  · intro hnil
    rw [hnil]
    exact ⟨rfl, List.all_eq_true.mpr fun f hf => by rw [eq_of_mem_unclosed hf]; rfl⟩

end Reader

open Reader

theorem faults_eq_found (source : String) : (scan source).faults = found .code [] source.toList := by
  obtain ⟨tokens, -, hm⟩ := munch_scan source
  exact hm.faults_eq

/-- An open string is reported on the line on which the text ends. -/
theorem line_of_mem_faults {source : String} {line : Nat}
    (h : .unterminatedString line ∈ (scan source).faults) : line = lineAfter source.toList := by
  rw [faults_eq_found, found, List.mem_append] at h
  rcases h with h | h
  · cases isUnterminated_of_mem_strays h
  · exact Fault.unterminatedString.inj (eq_of_mem_unclosed h)

theorem exists_tokenize_iff (source : String) :
    (∃ tokens, tokenize source = .ok tokens) ↔ (scan source).faults = [] := by
  cases hf : (scan source).faults <;> simp [tokenize, hf]

/-- What is amiss in a text apart from an open string is amiss in every longer text. -/
theorem all_isUnterminated_of_append {source more : String}
    (h : (scan (source ++ more)).faults.all Fault.isUnterminated = true) :
    (scan source).faults.all Fault.isUnterminated = true := by
  rw [faults_eq_found, all_found_iff] at h ⊢
  rw [String.toList_append] at h
  exact List.prefix_nil.mp (h ▸ strays_isPrefix (reads_isPrefix .code source.toList more.toList) [])

/-- A closing quote mends a text that leaves nothing but a string open. -/
theorem exists_clean_append {source : List Char} (h : strays [] (reads .code source) = []) :
    ∃ more, Clean (source ++ more) := by
  rw [strays_eq_nil_iff] at h
  by_cases hopen : last .code source = .string
  · obtain ⟨hreads, hlast⟩ := @reads_append .code source ['"']
      fun hcode => by rw [hopen] at hcode; cases hcode
    rw [hopen] at hreads hlast
    refine ⟨['"'], ?_, ?_⟩
    · rw [hreads, List.all_append, h]
      rfl
    · rw [hlast]
      exact Reader.noConfusion
  · exact ⟨[], by rwa [List.append_nil], by rwa [List.append_nil]⟩

/-- Text behind a source can mend it if and only if nothing but an open string is amiss. -/
theorem exists_mended_iff (source : String) :
    (∃ more tokens, tokenize (source ++ more) = .ok tokens) ↔
      (scan source).faults.all Fault.isUnterminated = true := by
  simp only [exists_tokenize_iff]
  constructor
  · rintro ⟨more, hm⟩
    have hall : (scan (source ++ more)).faults.all Fault.isUnterminated = true := by
      rw [hm]
      rfl
    exact all_isUnterminated_of_append hall
  · intro hall
    rw [faults_eq_found, all_found_iff] at hall
    obtain ⟨more, hclean⟩ := exists_clean_append hall
    refine ⟨String.ofList more, ?_⟩
    rwa [faults_eq_found, found_eq_nil_iff, String.toList_append, String.toList_ofList]

/-- Only the last fault of a scan can be an open string, so a lone one is all there is. -/
theorem onlyUnterminated_scan_iff (source : String) :
    Fault.onlyUnterminated (scan source).faults = true ↔
      (scan source).faults ≠ [] ∧ (scan source).faults.all Fault.isUnterminated = true := by
  have hlast := dropLast_found .code [] source.toList
  rw [← faults_eq_found] at hlast
  generalize (scan source).faults = faults at hlast
  match faults with
  | [] => simp [Fault.onlyUnterminated]
  | [f] => simp [Fault.onlyUnterminated]
  | f :: g :: rest =>
    rw [List.dropLast_cons_cons, List.any_cons, Bool.or_eq_false_iff] at hlast
    simp [Fault.onlyUnterminated, hlast.1]

/-- More input is asked for where the input is faulty and text behind it can mend it, and only
while more can come. The terminators at its end play no part in this. Text can mend every input
that leaves nothing but a string open, and no input with a stray character. -/
theorem respond_eq_none_iff_mendable (layout : Layout) (input : String) :
    (respond layout input true = none ↔
      (∃ faults, tokenize input = .error faults) ∧
        ∃ more tokens, tokenize (input ++ more) = .ok tokens) ∧
    respond layout input false ≠ none ∧
    Fault.onlyUnterminated (scan (withoutTerminators input)).faults =
      Fault.onlyUnterminated (scan input).faults ∧
    ((∃ more tokens, tokenize (input ++ more) = .ok tokens) ↔
      (scan input).faults.all Fault.isUnterminated = true) := by
  have htrim := onlyUnterminated_withoutTerminators input
  have herror : (∃ faults, tokenize input = .error faults) ↔ (scan input).faults ≠ [] := by
    cases hf : (scan input).faults <;> simp [tokenize, hf]
  have hnone : respond layout input true = none ↔
      Fault.onlyUnterminated (scan input).faults = true := by
    rw [respond_eq, htrim, Bool.true_and]
    cases Fault.onlyUnterminated (scan input).faults <;> simp
  refine ⟨?_, by simp [respond_eq], htrim, exists_mended_iff input⟩
  rw [hnone, herror, exists_mended_iff, onlyUnterminated_scan_iff]

end LoxLexis
