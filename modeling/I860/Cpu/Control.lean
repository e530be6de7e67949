import I860.Cpu.State
/-!
# Access to the control registers

Some control registers act when they are read or written. The fault instruction register
gives the address of the last fault once, and after that the address of the instruction that
reads it. Writing the directory base may empty the lookaside buffer and the instruction
cache, writing the status registers sets the rounding mode and the byte order.
-/

namespace I860.Cpu

variable {β : Type}

/-- What an instruction reads from a control register. -/
def readControl (c : Cpu β) : ControlReg → Word × Cpu β
  | .fir =>
      if c.faultAddrHeld then (c.control.fir, { c with faultAddrHeld := false }) else (c.pc, c)
  | reg => (c.control.raw reg, c)

/-- A write of the directory base. The command to invalidate is carried out and not kept; a
change of what is translated, or through which tables, empties the instruction cache alone. -/
def writeDirbase (c : Cpu β) (next : Dirbase) : Cpu β :=
  let old := c.control.dirbase
  let stored : ControlFile := { c.control with dirbase := { next with iti := false } }
  if next.iti then
    { c with mmu := c.mmu.flush, icache := c.icache.invalidate, control := stored }
  else if next.ate != old.ate || next.dtb != old.dtb then
    { c with icache := c.icache.invalidate, control := stored }
  else { c with control := stored }

/-- A write of the floating-point status register; the unit follows its rounding mode. -/
def writeFsr (c : Cpu β) (v : Word) : Cpu β :=
  let fsr := c.control.fsr.write v
  { c with fpu := c.fpu.setRounding fsr.rm }.setFsr fsr

/-- A write of the extended status register; data accesses follow its byte order. -/
def writeEpsr (c : Cpu β) (v : Word) : Cpu β :=
  let epsr := c.control.epsr.write v c.control.psr.u
  let order := if epsr.be != c.control.epsr.be then ByteOrder.ofBigEndian epsr.be else c.order
  { c with order := order }.setEpsr epsr

/-- What an instruction's write does to a control register and beyond. -/
def writeControl (c : Cpu β) (reg : ControlReg) (v : Word) : Cpu β :=
  match reg with
  | .fir => c
  | .psr => c.setPsr (c.control.psr.write v c.control.psr.u)
  | .dirbase => c.writeDirbase (Dirbase.ofBits v)
  | .db => { c with control := { c.control with db := v } }
  | .fsr => c.writeFsr v
  | .epsr => c.writeEpsr v

end I860.Cpu
