import I860.Registers.Floating
import I860.Registers.Integer
/-!
# The data registers

Integer and floating-point registers together with those that only some instructions use:
KR, KI and T of the dual operations, and MERGE of the graphics unit.
-/

namespace I860

/-- The registers that instructions compute with. -/
structure RegisterFile where
  ints : IntRegs
  floats : FloatRegs
  kr : Double
  ki : Double
  t : Double
  merge : Double
  deriving DecidableEq, Repr

namespace RegisterFile

/-- All registers zero. -/
def zero : RegisterFile := ⟨.zero, .zero, 0#64, 0#64, 0#64, 0#64⟩

/-- The contents after a reset. -/
def undefinedFill (pattern : Word) : RegisterFile :=
  { zero with ints := .undefinedFill pattern, floats := .undefinedFill pattern }

/-- All registers in dumps. -/
def dump (r : RegisterFile) : String :=
  r.ints.dump ++ r.floats.dump ++ "KR=" ++ Text.hexOf r.kr ++ " KI=" ++ Text.hexOf r.ki
    ++ " T=" ++ Text.hexOf r.t ++ " MERGE=" ++ Text.hexOf r.merge ++ "\n"

end RegisterFile

end I860
