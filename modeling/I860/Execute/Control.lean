import I860.Cpu.Control
/-!
# Control instructions

Transfers to and from control registers, and the instructions that raise a trap. A transfer
that names no register does nothing.
-/

namespace I860.Execute

variable {β : Type}

/-- `ld.c`. -/
def ldC (i : Instruction) (c : Cpu β) : Cpu β :=
  match ControlReg.ofNumber? i.src2 with
  | none => c
  | some reg =>
      let (v, c) := c.readControl reg
      c.writeInt i.dest v

/-- `st.c`. -/
def stC (i : Instruction) (c : Cpu β) : Cpu β :=
  match ControlReg.ofNumber? i.src2 with
  | none => c
  | some reg => c.writeControl reg (c.readInt i.src1)

/-- `intovr`: a trap if the last sum or difference overflowed. -/
def intovr : Exec β Unit := do
  let c ← get
  if c.control.epsr.of then raise .instruction else pure ()

end I860.Execute
