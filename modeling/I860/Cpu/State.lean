import I860.Board.Bus
import I860.Control.File
import I860.DualMode
import I860.Float.Unit
import I860.InstructionCache
import I860.Isa.Instruction
import I860.Paging.Mmu
import I860.Pipe
import I860.Registers.File
import I860.Telemetry
/-!
# The state of the processor

Everything the processor knows, together with the board it is attached to. Instructions are
programs in `Exec`, which carry this state along and may stop with a fault; the state
at the fault is kept, because what has happened up to there is part of the architecture.

A fault is a trap, or the discovery that delay slots are nested without end. The second is
no event of the architecture and no handler ever sees it.
-/

namespace I860

/-- What instructions and the step loop tell each other during one step. -/
structure StepFlags where
  /-- The instruction has set the program counter itself. -/
  pcUpdated : Bool
  /-- The low half of the pair asked for dual-instruction mode. -/
  dualCapable : Bool
  /-- An instruction at an odd word address was executed. -/
  highHalf : Bool
  /-- Pairs issue together, and a delay slot is two words. -/
  dual : Bool
  /-- A return from a trap has set the dual-instruction mode, which is not to advance. -/
  dualRestored : Bool
  deriving DecidableEq, Repr

namespace StepFlags

def initial : StepFlags := ⟨false, false, false, false, false⟩

end StepFlags

/-- What a processor is built with and does not change. -/
structure CpuParams where
  startPc : Word
  trapMisaligned : Bool
  sourceExceptionTraps : Bool
  undefinedPattern : Word
  processorType : Byte
  stepping : BitVec 5
  deriving DecidableEq, Repr

/-- A processor attached to a board. -/
structure Cpu (β : Type) where
  regs : RegisterFile
  control : ControlFile
  pc : Word
  adder : Pipe
  multiplier : Pipe
  loads : Pipe
  graphics : Pipe
  dual : DualMode
  /-- What the last compare in dual mode found. -/
  compareCode : Bool
  /-- `compareCode` stands in for the condition code at the next conditional branch. -/
  comparePending : Bool
  saved : DualSnapshot
  mmu : Mmu
  icache : InstructionCache
  /-- The level of the interrupt pin. -/
  irqLine : Bool
  stats : Stats
  flags : StepFlags
  /-- The next step begins as if its low half had asked for dual-instruction mode. -/
  resumeCapable : Bool
  /-- The next read of the fault instruction register gives the address of the fault. -/
  faultAddrHeld : Bool
  /-- The byte order of data. -/
  order : ByteOrder
  fpu : FloatUnit
  /-- How instructions are shown in dumps, if they are. -/
  listing : Option (Word → Instruction → String)
  params : CpuParams
  board : β

/-- Why executing stops before its end. -/
inductive Fault where
  | trap (t : Trap)
  | endlessSlot
  deriving DecidableEq, Repr

/-- A program that works on the state of a processor and may stop with a fault. -/
abbrev Exec (β : Type) := EStateM Fault (Cpu β)

namespace Cpu

variable {β : Type}

def setPsr (c : Cpu β) (psr : Psr) : Cpu β := { c with control := { c.control with psr := psr } }

def setFsr (c : Cpu β) (fsr : Fsr) : Cpu β := { c with control := { c.control with fsr := fsr } }

def setEpsr (c : Cpu β) (epsr : Epsr) : Cpu β :=
  { c with control := { c.control with epsr := epsr } }

def readInt (c : Cpu β) (i : RegNum) : Word := c.regs.ints.read i

def writeInt (c : Cpu β) (i : RegNum) (v : Word) : Cpu β :=
  { c with regs := { c.regs with ints := c.regs.ints.write i v } }

def setFloats (c : Cpu β) (floats : FloatRegs) : Cpu β :=
  { c with regs := { c.regs with floats := floats } }

/-- Writes a result to a floating register with the precision it has. -/
def writeSlot (c : Cpu β) (i : RegNum) (slot : PipeSlot) : Cpu β :=
  c.setFloats <|
    if slot.double then c.regs.floats.writePair i slot.bits
    else c.regs.floats.writeLane i (slot.bits.setWidth 32)

/-- Sets the program counter on behalf of an instruction. -/
def jump (c : Cpu β) (target : Word) : Cpu β :=
  { c with pc := target, flags := { c.flags with pcUpdated := true } }

/-- How many bytes a delay slot covers. -/
def slotBytes (c : Cpu β) : Word := if c.flags.dual then 8#32 else 4#32

/-- The address behind the delay slot of the branch at the program counter. -/
def afterSlot (c : Cpu β) : Word := c.pc + 4#32 + c.slotBytes

/-- The condition code that a conditional branch sees. -/
def branchCode (c : Cpu β) : Bool :=
  if c.comparePending then c.compareCode else c.control.psr.cc

/-- Drives the interrupt pin, whose level a status bit shows. -/
def setIrqLine (c : Cpu β) (level : Bool) : Cpu β :=
  { c with irqLine := level }.setEpsr { c.control.epsr with int := level }

/-- Attaches another floating-point unit, set to the rounding mode in use. -/
def withFloatUnit (c : Cpu β) (u : FloatUnit) : Cpu β :=
  { c with fpu := u.setRounding c.control.fsr.rm }

end Cpu

/-- Raises a trap: its status bit is set, and the instruction stops. -/
def raise {β α : Type} (kind : TrapKind) : Exec β α := do
  modify fun c => c.setPsr (c.control.psr.setTrap kind)
  throw (.trap (.ofKind kind))

/-- Runs a program and undoes something in the state if it stops with a fault. -/
def undoOnFault {β α : Type} (program : Exec β α) (undo : Cpu β → Cpu β) : Exec β α := fun c =>
  match program c with
  | .ok a c => .ok a c
  | .error fault c => .error fault (undo c)

end I860
