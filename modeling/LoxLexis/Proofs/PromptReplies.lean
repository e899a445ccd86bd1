import LoxLexis.Prompt.Response

/-! What the prompt says about a text, and when it says nothing yet. -/
namespace LoxLexis

/-- The tokens of a text, printed, and the reports of its faults, if it has any. -/
def reply (layout : Layout) (source : String) : Response where
  tokens := (scan source).tokens.map (Token.render layout)
  diagnostics :=
    if (scan source).faults.isEmpty then none else some (Fault.reports (scan source).faults)

theorem respond_eq (layout : Layout) (input : String) (moreInput : Bool) :
    respond layout input moreInput =
      if moreInput && Fault.onlyUnterminated (scan (withoutTerminators input)).faults then none
      else some (reply layout (withoutTerminators input)) := rfl

theorem onlyUnterminated_iff {faults : List Fault} :
    Fault.onlyUnterminated faults = true ↔ ∃ line, faults = [.unterminatedString line] := by
  unfold Fault.onlyUnterminated
  split
  · rename_i f
    cases f <;> simp [Fault.isUnterminated]
  · rename_i hne
    simp only [Bool.false_eq_true, false_iff, not_exists]
    exact fun line => hne _

namespace Response

def stdout (r : Response) : String := String.join (r.tokens.map (· ++ "\n"))

def stderr (r : Response) : String :=
  match r.diagnostics with
  | some text => text ++ "\n"
  | none => ""

end Response

theorem stderr_reply_of_faultless {source : String} (h : (scan source).faults = [])
    (layout : Layout) : (reply layout source).stderr = "" := by
  simp [reply, Response.stderr, h]

theorem stderr_reply_of_open {source : String} {line : Nat}
    (h : (scan source).faults = [.unterminatedString line]) (layout : Layout) :
    (reply layout source).stderr =
      "[line " ++ line.repr ++ "] Error: Unterminated string.\n" := by
  simp [reply, Response.stderr, h, Fault.reports, Fault.report, Fault.line, Fault.message,
    String.append_assoc]

end LoxLexis
