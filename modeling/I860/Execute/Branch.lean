import I860.Cpu.TrapEntry
/-!
# Branches

A delayed branch decides where to go, runs the instructions in its delay slot, and then goes
there. What it has to do beside that, it undoes if the slot faults, so that the branch can be
executed again.

The slot is a parameter here: an instruction in the slot may be a delayed branch itself, and
the recursion is tied where instructions are executed.
-/

namespace I860.Execute

variable {β : Type}

/-- The register that calls leave the return address in. -/
def linkReg : RegNum := 1

/-- The address a number of words behind the instruction after `pc`. -/
def branchTarget (pc offset : Word) : Word := pc + 4#32 + (offset <<< 2)

/-- `br`. -/
def br (slot : Exec β Unit) (i : Instruction) : Exec β Unit := do
  let target := branchTarget (← get).pc i.branchOffset
  slot
  modify fun c => c.jump target

/-- A branch that leaves the address behind its slot in the link register, where the slot
already sees it. -/
def linkAndBranch (slot : Exec β Unit) (target : Word) : Exec β Unit := do
  let c ← get
  let old := c.readInt linkReg
  set (c.writeInt linkReg c.afterSlot)
  undoOnFault slot fun c => c.writeInt linkReg old
  modify fun c => c.jump target

/-- `call`. -/
def call (slot : Exec β Unit) (i : Instruction) : Exec β Unit := do
  linkAndBranch slot (branchTarget (← get).pc i.branchOffset)

/-- `calli`: the target is read before the link register is written. -/
def calli (slot : Exec β Unit) (i : Instruction) : Exec β Unit := do
  linkAndBranch slot ((← get).readInt i.src1)

/-- `bri`. If a trap was on record when it issued, it is the return from the handler. -/
def bri (slot : Exec β Unit) (i : Instruction) : Exec β Unit := do
  let c ← get
  let target := c.readInt i.src1
  let returning := c.control.psr.anyTrap
  slot
  modify fun c => (if returning then c.returnFromTrap else c).jump target

/-- A branch without a slot. -/
def branchIf (taken : Bool) (target : Word) (c : Cpu β) : Cpu β :=
  if taken then c.jump target else c

/-- `bc`, and `bnc` with the opposite condition. -/
def bc (wanted : Bool) (i : Instruction) (c : Cpu β) : Cpu β :=
  branchIf (c.branchCode == wanted) (branchTarget c.pc i.branchOffset) c

/-- `bc.t`, and `bnc.t` with the opposite condition. Not taken, it skips its slot. -/
def bcT (wanted : Bool) (slot : Exec β Unit) (i : Instruction) : Exec β Unit := do
  let c ← get
  if c.branchCode == wanted then
    let target := branchTarget c.pc i.branchOffset
    slot
    modify fun c => c.jump target
  else modify fun c => c.jump c.afterSlot

/-- What `bte` and `btne` compare: a register, or five bits of the word. -/
def compareOperand (c : Cpu β) (i : Instruction) : Word :=
  if i.hasImmediate then BitVec.ofNat 32 i.src1.val else c.readInt i.src1

/-- `bte`, and `btne` with the opposite condition. -/
def bte (wanted : Bool) (i : Instruction) (c : Cpu β) : Cpu β :=
  branchIf ((compareOperand c i == c.readInt i.src2) == wanted)
    (branchTarget c.pc i.splitOffset) c

/-- The loop condition that `bla` leaves behind: its counter has not run out. -/
def loopCondition (step counter : Word) : Bool := (-step).sle counter

/-- `bla`: adds a step to a counter, branches on the loop condition from before, and leaves
the new one. -/
def bla (slot : Exec β Unit) (i : Instruction) : Exec β Unit := do
  let c ← get
  let step := c.readInt i.src1
  let counter := c.readInt i.src2
  let taken := c.control.psr.lcc
  let target := branchTarget c.pc i.splitOffset
  set (c.writeInt i.src2 (step + counter))
  undoOnFault slot fun c => c.writeInt i.src2 counter
  modify fun c =>
    let gone := c.jump (if taken then target else c.afterSlot)
    gone.setPsr { gone.control.psr with lcc := loopCondition step counter }

end I860.Execute
