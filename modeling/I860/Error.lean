import I860.Word
import I860.Text.Hex
/-!
# What can go wrong before a run

Traps belong to the processor and never leave it. The failures here are the host's: a
failed self-test, a configuration that cannot be used, an image that does not fit, a file
that cannot be read. Each is a cause; its wording and the exit code that a command-line tool
reports stand in one place.
-/

namespace I860

/-- Why a processor cannot be set up or an image cannot be loaded. -/
inductive HostError where
  | selfTest (check : String)
  | config (problem : String)
  /-- The text of a configuration is not of the expected form. -/
  | configSyntax
  | imageTooLarge (addr : Word) (length : Nat)
  | file (problem : String)
  deriving DecidableEq, Repr

namespace HostError

/-- The wording of a failure. -/
def message : HostError → String
  | .selfTest check => "self-test failed: " ++ check
  | .config problem => "invalid configuration: " ++ problem
  | .configSyntax => "configuration parse error"
  | .imageTooLarge addr length =>
      "image of " ++ toString length ++ " bytes does not fit at " ++ Text.markedHexOf addr
  | .file problem => "i/o error: " ++ problem

/-- The exit code of a tool that cannot go on. -/
def exitCode : HostError → Nat
  | .selfTest _ => 3
  | .config _ | .configSyntax => 2
  | .imageTooLarge _ _ | .file _ => 1

end HostError

/-- Why a file gave no usable contents. -/
inductive FileProblem where
  | missing
  | notText
  deriving DecidableEq, Repr

namespace FileProblem

def message : FileProblem → String
  | .missing => "No such file or directory (os error 2)"
  | .notText => "stream did not contain valid UTF-8"

end FileProblem

end I860
