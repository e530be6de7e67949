import I860.Cpu.Fetch
import I860.Execute.Instruction
/-!
# Steps

A step executes the pair of instructions at the program counter, or the single one at an odd
word address. Its faults enter the trap handler within the step, so a step always ends.

The instruction in a delay slot may be a delayed branch with a slot of its own, to any depth.
`executeOne` counts the depth down. The count a step starts with is the number of words there
are addresses for; a program that goes deeper has no end, and a step that finds this out
leaves the processor as it was.
-/

namespace I860

variable {β : Type} [Bus β]

/-- Runs the slot of the branch at the program counter: one instruction, or a pair in dual
mode. The program counter is back at the branch afterwards, whatever happened, and a trap
remembers where it came from. -/
def delaySlot (one : Exec β Unit) : Exec β Unit := fun c =>
  let restore (after : Cpu β) : Cpu β :=
    { after with pc := c.pc, flags := { after.flags with pcUpdated := false } }
  let body : Exec β Unit := if c.flags.dual then (do one; one) else one
  match body { c with pc := c.pc + 4#32 } with
  | .ok _ after => .ok () (restore after)
  | .error (.trap t) after => .error (.trap t.markDelaySlot) (restore after)
  | .error .endlessSlot after => .error .endlessSlot (restore after)

/-- Notes for the step what instruction issues, and where. -/
def Cpu.noteIssue (c : Cpu β) (pc : VirtAddr) (i : Instruction) : Cpu β :=
  let flags := c.flags
  { c with
    flags :=
      { flags with
        dualCapable := flags.dualCapable || (!pc.getLsbD 2 && i.asksForDual)
        highHalf := flags.highHalf || pc.getLsbD 2
        pcUpdated := false } }

/-- Counts an instruction that has ended, and goes on to the next unless it has jumped. -/
def Cpu.retire (c : Cpu β) : Cpu β :=
  { c with
    stats := { c.stats with instructions := c.stats.instructions + 1 }
    pc := if c.flags.pcUpdated then c.pc else c.pc + 4#32 }

/-- Fetches and executes the instruction at the program counter, with delay slots nested to
at most the given depth. -/
def executeOne : (depth : Nat) → Exec β Unit
  | 0 => throw .endlessSlot
  | depth + 1 => do
      let pc := (← get).pc
      let i : Instruction := ⟨← fetch pc⟩
      modify fun c => c.noteIssue pc i
      execute (delaySlot (executeOne depth)) i
      modify Cpu.retire

/-- Executes the pair at the program counter, or what is left of it. -/
def executePair (depth : Nat) : Exec β Unit := do
  let first := (← get).pc
  executeOne depth
  if !first.getLsbD 2 && !(← get).flags.pcUpdated then executeOne depth

/-- The depth to which delay slots may be nested: one for each word there is an address
for. -/
def maxNesting : Nat := 2 ^ 30

/-- Executes one instruction outside of any step. -/
def executeAlone (i : Instruction) : Exec β Unit := execute (delaySlot (executeOne maxNesting)) i

namespace Cpu

/-- The state in which a step executes its pair. -/
def beginStep (c : Cpu β) : Cpu β :=
  { c with
    flags := { StepFlags.initial with dualCapable := c.resumeCapable, dual := c.dual.isDual }
    resumeCapable := false }

/-- Moves dual-instruction mode on after a pair, unless a return from a trap has set it. -/
def advanceDual (c : Cpu β) : Cpu β :=
  if c.flags.dualRestored then c
  else { c with dual := c.dual.next c.flags.dualCapable, comparePending := false }

/-- Whether an interrupt is accepted at the end of a step. -/
def acceptsInterrupt (c : Cpu β) : Bool :=
  c.flags.highHalf && c.dual == .none && c.irqLine && c.control.psr.im

/-- Enters the trap handler if an interrupt is accepted. -/
def takeInterrupt (c : Cpu β) : Cpu β :=
  if c.acceptsInterrupt then (c.setPsr { c.control.psr with inr := true }).enterTrap Trap.ofPin
  else c

/-- Counts a step. -/
def countStep (c : Cpu β) : Cpu β := { c with stats := { c.stats with steps := c.stats.steps + 1 } }

/-- One step. -/
def step (c : Cpu β) : Cpu β :=
  match executePair maxNesting c.beginStep with
  | .ok _ after => after.advanceDual.takeInterrupt.countStep
  | .error (.trap t) after => (after.enterTrap t).countStep
  | .error .endlessSlot _ => c

/-- A number of steps. -/
def steps : (count : Nat) → Cpu β → Cpu β
  | 0, c => c
  | n + 1, c => steps n c.step

end Cpu

end I860
