import LoxLexis.Scan.Basic

/-! A log of faults that many scans share. -/
namespace LoxLexis

/-- The faults reported since the log was last cleared. -/
structure FaultLog where
  faults : Array Fault := #[]
deriving DecidableEq, Repr

inductive FaultLog.Step
  | clear
  | report (f : Fault)
  | scan (source : String)
deriving DecidableEq, Repr

/-- What is known after a step: the tokens, if it was a scan, and all faults in the log. -/
structure FaultLog.Entry where
  tokens : Option (List Token)
  faults : List Fault
deriving DecidableEq, Repr

namespace FaultLog

def report (log : FaultLog) (f : Fault) : FaultLog := ⟨log.faults.push f⟩

def perform (log : FaultLog) : Step → FaultLog × Option (List Token)
  | .clear => (⟨#[]⟩, none)
  | .report f => (log.report f, none)
  | .scan source =>
    let (tokens, log) := scanInto report log source
    (log, some tokens)

def entries : FaultLog → List Step → List Entry
  | _, [] => []
  | log, step :: rest =>
    let (log, tokens) := log.perform step
    ⟨tokens, log.faults.toList⟩ :: log.entries rest

/-- A scan yields the same tokens whatever the log holds. -/
theorem perform_scan_tokens (log : FaultLog) (source : String) :
    (log.perform (.scan source)).2 = some (scan source).tokens := by
  simp [perform, scanInto_eq]

end FaultLog
end LoxLexis
