import I860.Control.Dirbase
import I860.Control.Epsr
import I860.Control.Fsr
import I860.Control.Psr
import I860.Text.Hex
/-!
# The control registers

The six registers that `ld.c` and `st.c` reach. What reading and writing them does to the
rest of the processor is said with the processor; here they are only held and shown.
-/

namespace I860

/-- A control register. -/
inductive ControlReg where
  /-- Fault instruction register. -/
  | fir
  | psr
  | dirbase
  /-- Data breakpoint. -/
  | db
  | fsr
  | epsr
  deriving DecidableEq, Repr

namespace ControlReg

/-- All control registers, in the order of their numbers. -/
def all : List ControlReg := [.fir, .psr, .dirbase, .db, .fsr, .epsr]

/-- The register that a number selects; numbers above five select none. -/
def ofNumber? (n : Nat) : Option ControlReg := all[n]?

def name : ControlReg → String
  | .fir => "fir"
  | .psr => "psr"
  | .dirbase => "dirbase"
  | .db => "db"
  | .fsr => "fsr"
  | .epsr => "epsr"

end ControlReg

/-- The contents of the control registers. -/
structure ControlFile where
  fir : Word
  psr : Psr
  dirbase : Dirbase
  db : Word
  fsr : Fsr
  epsr : Epsr
  deriving DecidableEq, Repr

namespace ControlFile

/-- All registers zero. -/
def zero : ControlFile where
  fir := 0#32
  psr := Psr.ofBits 0#32
  dirbase := Dirbase.ofBits 0#32
  db := 0#32
  fsr := Fsr.ofBits 0#32
  epsr := Epsr.ofBits 0#32

/-- The contents of a register as one word. -/
def raw (c : ControlFile) : ControlReg → Word
  | .fir => c.fir
  | .psr => c.psr.bits
  | .dirbase => c.dirbase.bits
  | .db => c.db
  | .fsr => c.fsr.bits
  | .epsr => c.epsr.bits

/-- All registers on one line. -/
def dump (c : ControlFile) : String :=
  String.join (ControlReg.all.map fun r => r.name ++ "=" ++ Text.hexOf (c.raw r) ++ " ") ++ "\n"

end ControlFile

end I860
