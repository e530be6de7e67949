/-!
# Traps

A trap is how the processor reports a fault to the program it runs. It is an ordinary value:
instructions raise it, the step loop catches it, and it never becomes a failure of the
simulator.
-/

namespace I860

/-- The class of a trap; each has its own status bit. -/
inductive TrapKind where
  | instruction
  | instructionAccess
  | dataAccess
  | floatingPoint
  | interrupt
  deriving DecidableEq, Repr

namespace TrapKind

/-- The name of the status bit of a trap. -/
def name : TrapKind → String
  | .instruction => "IT"
  | .instructionAccess => "IAT"
  | .dataAccess => "DAT"
  | .floatingPoint => "FT"
  | .interrupt => "IN"

end TrapKind

/-- A trap on its way to the trap handler. -/
structure Trap where
  kind : TrapKind
  /-- Raised by an instruction in the delay slot of a branch. -/
  inDelaySlot : Bool
  /-- Raised by the interrupt pin and not by an instruction. -/
  external : Bool
  deriving DecidableEq, Repr

namespace Trap

/-- A trap raised by the instruction that is executing. -/
def ofKind (kind : TrapKind) : Trap := ⟨kind, false, false⟩

/-- The trap that the interrupt pin raises. -/
def ofPin : Trap := ⟨.interrupt, false, true⟩

/-- The same trap, known to come from a delay slot. -/
def markDelaySlot (t : Trap) : Trap := { t with inDelaySlot := true }

/-- The wording of a trap. -/
def text (t : Trap) : String :=
  t.kind.name ++ " trap"
    ++ (if t.inDelaySlot then " (delay slot)" else "")
    ++ (if t.external then " (external)" else "")

end Trap

end I860
