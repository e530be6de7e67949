import I860.Alu
import I860.Cpu.State
/-!
# Integer instructions

The first source is a register or the immediate. The immediate is extended with its sign for
sums and differences, with zeros for logic and shifts, and moved to the upper half for the
forms that say so. Flags and result depend only on the sources as they were before, so the
destination may be one of them.
-/

namespace I860.Execute

variable {β : Type}

/-- The first source. -/
def firstOperand (c : Cpu β) (i : Instruction) (immediate : Word) : Word :=
  if i.hasImmediate then immediate else c.readInt i.src1

/-- Writes a result and the flags that go with it. -/
def commit (c : Cpu β) (i : Instruction) (r : AluResult) : Cpu β :=
  let psr := { c.control.psr with cc := r.cc.getD c.control.psr.cc }
  let epsr := { c.control.epsr with of := r.of.getD c.control.epsr.of }
  ((c.setPsr psr).setEpsr epsr).writeInt i.dest r.value

/-- Sums and differences. -/
def arith (op : AluOp) (i : Instruction) (c : Cpu β) : Cpu β :=
  commit c i (Alu.execute op (firstOperand c i i.signedImm16) (c.readInt i.src2))

/-- Bitwise operations; `high` moves the immediate to the upper half. -/
def logic (op : AluOp) (high : Bool) (i : Instruction) (c : Cpu β) : Cpu β :=
  let immediate := if high then i.imm16 <<< 16 else i.imm16
  commit c i (Alu.execute op (firstOperand c i immediate) (c.readInt i.src2))

/-- Shifts. The shift to the right leaves its count for `shrd`. -/
def shift (op : AluOp) (i : Instruction) (c : Cpu β) : Cpu β :=
  let count := firstOperand c i i.imm16
  let value := c.readInt i.src2
  let counted :=
    if op = .shr then c.setPsr { c.control.psr with sc := Alu.shiftCount count } else c
  commit counted i (Alu.execute op count value)

/-- The shift of a pair of registers by the count that the last shift to the right left. -/
def shiftPair (i : Instruction) (c : Cpu β) : Cpu β :=
  c.writeInt i.dest (Alu.shiftPair (c.readInt i.src1) (c.readInt i.src2) c.control.psr.sc)

end I860.Execute
