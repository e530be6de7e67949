import I860.Float.Format
import I860.Text.Hex
/-!
# Pipes

A floating-point unit delivers a pipelined result some issues later: issuing puts the new
result into the first stage, moves the others along, and retires what was in the last. A
slot keeps the bits of a result and its precision, because a result is written to its
register with the precision it was computed in, not with that of the instruction that
retires it.

The multiplier is two or three stages deep depending on the instruction. A two-stage issue
leaves the third slot alone.
-/

namespace I860

/-- One result on its way through a pipe. A single result fills the low word. -/
structure PipeSlot where
  bits : Double
  double : Bool
  deriving DecidableEq, Repr

namespace PipeSlot

/-- The slot of an empty stage. -/
def empty : PipeSlot := ⟨0#64, false⟩

def ofSingle (v : Word) : PipeSlot := ⟨v.setWidth 64, false⟩

def ofDouble (v : Double) : PipeSlot := ⟨v, true⟩

/-- Bits that are not a floating-point number, of the given precision. -/
def ofBits (bits : Double) (double : Bool) : PipeSlot :=
  ⟨if double then bits else bits &&& 0xffffffff#64, double⟩

/-- The result as a 64-bit number. -/
def toDouble (s : PipeSlot) : Double :=
  if s.double then s.bits else widen (s.bits.setWidth 32)

/-- The result as a 32-bit number. -/
def toSingle (s : PipeSlot) : Word :=
  if s.double then narrowNearest s.bits else s.bits.setWidth 32

/-- The slot in dumps: its bits and the letter of its precision. -/
def text (s : PipeSlot) : String := Text.hexOf s.bits ++ (if s.double then "d" else "s")

end PipeSlot

/-- How many stages an issue passes through. -/
inductive PipeDepth where
  | one
  | two
  | three
  deriving DecidableEq, Repr

/-- The stages of a pipe, newest first. -/
structure Pipe where
  first : PipeSlot
  second : PipeSlot
  third : PipeSlot
  deriving DecidableEq, Repr

namespace Pipe

def empty : Pipe := ⟨.empty, .empty, .empty⟩

/-- The stages in order, newest first. -/
def stages (p : Pipe) : List PipeSlot := [p.first, p.second, p.third]

/-- The last of the given number of stages. -/
def last (p : Pipe) : PipeDepth → PipeSlot
  | .one => p.first
  | .two => p.second
  | .three => p.third

/-- The pipe after an issue that passes through the given number of stages. -/
def advance (p : Pipe) (depth : PipeDepth) (slot : PipeSlot) : Pipe :=
  match depth with
  | .one => { p with first := slot }
  | .two => { p with first := slot, second := p.first }
  | .three => ⟨slot, p.first, p.second⟩

end Pipe

/-- The depth of the multiplier: double sources pass through two stages, unless the
instruction is the one that asks for three. -/
def multiplierDepth (doubleSource threeStage : Bool) : PipeDepth :=
  if doubleSource && !threeStage then .two else .three

end I860
