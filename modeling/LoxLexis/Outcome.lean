import LoxLexis.Failure

/-! What a run leaves behind: two texts and a code. -/
namespace LoxLexis

structure Output where
  stdout : String := ""
  stderr : String := ""
deriving DecidableEq, Repr

namespace Output

def print (o : Output) (text : String) : Output := { o with stdout := o.stdout ++ text }

def printError (o : Output) (text : String) : Output := { o with stderr := o.stderr ++ text }

def printLines (o : Output) (lines : List String) : Output :=
  lines.foldl (fun o line => (o.print line).print "\n") o

theorem printLines_nil (o : Output) : o.printLines [] = o := rfl

theorem printLines_cons (o : Output) (line : String) (rest : List String) :
    o.printLines (line :: rest) = ((o.print line).print "\n").printLines rest := rfl

theorem stdout_printLines (o : Output) (lines : List String) :
    (o.printLines lines).stdout = o.stdout ++ String.join (lines.map (· ++ "\n")) := by
  induction lines generalizing o with
  | nil => simp [printLines_nil]
  | cons line rest ih =>
    rw [printLines_cons, ih]
    simp [print, String.append_assoc]

theorem stderr_printLines (o : Output) (lines : List String) :
    (o.printLines lines).stderr = o.stderr := by
  induction lines generalizing o with
  | nil => rfl
  | cons line rest ih => rw [printLines_cons, ih]; rfl

end Output

/-- The output of a finished run and the code it ends with. -/
structure Outcome where
  code : Nat
  output : Output
deriving DecidableEq, Repr

/-- A run that ends well, or by a failure of which the last line of error output tells. -/
def Outcome.ofEnding (output : Output) : Option Failure → Outcome
  | none => ⟨0, output⟩
  | some failure => ⟨failure.exitCode, (output.printError failure.message).printError "\n"⟩

end LoxLexis
