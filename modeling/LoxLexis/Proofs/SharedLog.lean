import LoxLexis.Proofs.PromptReplies
import LoxLexis.Scan.FaultLog
import Mathlib.Data.List.DropRight
import Mathlib.Data.List.Induction

/-! A log of faults in which the scans of a session leave their traces, and from which they learn
nothing. -/
namespace LoxLexis.FaultLog

/-- What a step adds to the log by itself. -/
def Step.reported : Step → List Fault
  | .clear => []
  | .report f => [f]
  | .scan source => (LoxLexis.scan source).faults

def Step.tokens? : Step → Option (List Token)
  | .scan source => some (LoxLexis.scan source).tokens
  | .clear | .report _ => none

/-- The steps at the end of a session that come after the last clearing. -/
def sinceClear (steps : List Step) : List Step := steps.rtakeWhile (· != .clear)

/-- Everything reported since the last clearing. Without one, what was in the log at first counts
too. -/
def held (log : FaultLog) (steps : List Step) : List Fault :=
  (if .clear ∈ steps then [] else log.faults.toList) ++ (sinceClear steps).flatMap Step.reported

def after (log : FaultLog) (steps : List Step) : FaultLog :=
  steps.foldl (fun log step => (log.perform step).1) log

private theorem after_concat (log : FaultLog) (steps : List Step) (step : Step) :
    log.after (steps ++ [step]) = ((log.after steps).perform step).1 := by
  rw [after, List.foldl_append]
  rfl

private theorem held_concat (log : FaultLog) (steps : List Step) (step : Step) :
    log.held (steps ++ [step]) =
      (if step = .clear then [] else log.held steps) ++ step.reported := by
  by_cases hclear : step = .clear
  · subst hclear
    simp [held, sinceClear, Step.reported]
  · have hkept : (step != .clear) = true := bne_iff_ne.mpr hclear
    simp [held, sinceClear, hclear, hkept, Ne.symm hclear]

private theorem foldl_report (log : FaultLog) (faults : List Fault) :
    (faults.foldl report log).faults.toList = log.faults.toList ++ faults := by
  induction faults generalizing log with
  | nil => exact (List.append_nil _).symm
  | cons f faults ih =>
    rw [List.foldl_cons, ih, report, Array.toList_push, List.append_assoc]
    rfl

private theorem faults_perform (log : FaultLog) (step : Step) :
    (log.perform step).1.faults.toList =
      (if step = .clear then [] else log.faults.toList) ++ step.reported := by
  cases step with
  | clear => rfl
  | report f => exact Array.toList_push
  | scan source =>
    rw [perform, scanInto_eq]
    exact foldl_report log _

private theorem tokens_perform (log : FaultLog) (step : Step) :
    (log.perform step).2 = step.tokens? := by
  cases step with
  | clear | report => rfl
  | scan source => exact perform_scan_tokens log source

/-- A whole session. -/
theorem faults_after (log : FaultLog) (steps : List Step) :
    (log.after steps).faults.toList = log.held steps := by
  induction steps using List.reverseRecOn with
  | nil => exact (List.append_nil _).symm
  | append_singleton steps step ih => rw [after_concat, faults_perform, held_concat, ih]

private theorem entries_cons (log : FaultLog) (step : Step) (later : List Step) :
    log.entries (step :: later) =
      ⟨(log.perform step).2, (log.perform step).1.faults.toList⟩ ::
        (log.perform step).1.entries later := rfl

private theorem length_entries (log : FaultLog) (steps : List Step) :
    (log.entries steps).length = steps.length := by
  induction steps generalizing log with
  | nil => rfl
  | cons step steps ih => rw [entries_cons, List.length_cons, List.length_cons, ih]

private theorem entries_append (log : FaultLog) (done later : List Step) :
    log.entries (done ++ later) = log.entries done ++ (log.after done).entries later := by
  induction done generalizing log with
  | nil => rfl
  | cons step done ih =>
    rw [List.cons_append, entries_cons, entries_cons, ih]
    rfl

private theorem getElem?_entries (log : FaultLog) (done : List Step) (step : Step)
    (later : List Step) :
    (log.entries (done ++ step :: later))[done.length]? =
      some ⟨step.tokens?, log.held (done ++ [step])⟩ := by
  rw [entries_append, ← length_entries log done, List.getElem?_append_right (Nat.le_refl _),
    Nat.sub_self, entries_cons, List.getElem?_cons_zero, tokens_perform, ← after_concat,
    faults_after]

end LoxLexis.FaultLog

namespace LoxLexis

/-- Whatever takes in the faults of a scan, the tokens are those of any scan of the source, and the
faults are taken in one by one as a scan finds them. So in a session over one log, at each step, a
scan has the tokens that it has by itself, and the log holds all that has been reported since it was
last cleared. More text could mend that only if it is a single open string. -/
theorem scanInto_sink_pure :
    (∀ (σ : Type) (report : σ → Fault → σ) (sink : σ) (source : String),
      scanInto report sink source =
        ((scan source).tokens, (scan source).faults.foldl report sink)) ∧
    ∀ (log : FaultLog) (done : List FaultLog.Step) (step : FaultLog.Step)
      (later : List FaultLog.Step),
      (log.entries (done ++ step :: later)).length = (done ++ step :: later).length ∧
      ∃ entry, (log.entries (done ++ step :: later))[done.length]? = some entry ∧
        entry.tokens = step.tokens? ∧ entry.faults = log.held (done ++ [step]) ∧
        (Fault.onlyUnterminated entry.faults = true ↔
          ∃ line, entry.faults = [.unterminatedString line]) := by
  refine ⟨fun σ report sink source => scanInto_eq report sink source, ?_⟩
  intro log done step later
  exact ⟨log.length_entries _, _, log.getElem?_entries done step later, rfl, rfl,
    onlyUnterminated_iff⟩

end LoxLexis
