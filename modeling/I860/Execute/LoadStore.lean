import I860.Cpu.Memory
import I860.Graphics
/-!
# Loads and stores

An instruction forms its address, makes the access, and only then writes registers, so an
access that faults leaves the registers alone. Floating forms may write the address back to
the base register.
-/

namespace I860.Execute

variable {β : Type}

/-- The width of an integer load or store. -/
def intWidth (i : Instruction) : Width :=
  match i.raw.getLsbD 28, i.raw.getLsbD 0 with
  | false, _ => .byte
  | true, false => .half
  | true, true => .word

/-- The width of a floating load or store. -/
def floatWidth (i : Instruction) : Width :=
  match i.raw.getLsbD 2, i.raw.getLsbD 1 with
  | false, false => .double
  | true, false => .quad
  | _, true => .word

/-- The address of a load or store: base register and index register, or base register and
displacement. -/
def effectiveAddr (c : Cpu β) (i : Instruction) (width : Width) : VirtAddr :=
  c.readInt i.src2 +
    (if i.hasImmediate then i.signedImm16 &&& width.alignMask else c.readInt i.src1)

/-- Writes the address back to the base register where the instruction says so. -/
def autoIncrement (c : Cpu β) (i : Instruction) (addr : VirtAddr) : Cpu β :=
  if i.autoIncrement then c.writeInt i.src2 addr else c

/-- An integer read from memory, extended with its sign. -/
def extendLoaded (width : Width) (v : Quad) : Word :=
  match width with
  | .byte => (v.setWidth 8).signExtend 32
  | .half => (v.setWidth 16).signExtend 32
  | _ => v.setWidth 32

/-- The four words of a quad, lowest first. -/
def wordsOfQuad (v : Quad) : List Word :=
  [v.setWidth 32, (v >>> 32).setWidth 32, (v >>> 64).setWidth 32, (v >>> 96).setWidth 32]

/-- The quad made of words, lowest first. -/
def quadOfWords (words : List Word) : Quad :=
  words.foldr (fun word acc => (acc <<< 32) ||| word.setWidth 128) 0#128

/-- The floating registers after a load of the given width. -/
def writeLoaded (r : FloatRegs) (dest : RegNum) (width : Width) (v : Quad) : FloatRegs :=
  match width with
  | .quad => r.loadGroup dest (wordsOfQuad v)
  | .double => r.writePair dest (v.setWidth 64)
  | _ => r.writeLane dest (v.setWidth 32)

/-- What a store of the given width takes from the floating registers. -/
def readStored (r : FloatRegs) (src : RegNum) (width : Width) : Quad :=
  match width with
  | .quad => quadOfWords (r.readGroup src 4)
  | .double => (r.readPair src).setWidth 128
  | _ => (r.readLane src).setWidth 128

/-- `ixfr`: an integer register to a floating register. -/
def ixfr (i : Instruction) (c : Cpu β) : Cpu β :=
  c.setFloats (c.regs.floats.writeLane i.dest (c.readInt i.src1))

/-- `flush`: there is no data cache, so only the address is formed. -/
def flush (i : Instruction) (c : Cpu β) : Cpu β :=
  autoIncrement c i (c.readInt i.src2 + (i.signedImm16 &&& Width.alignMask .quad))

/-- The state after a pipelined load of `v`. The register gets what was loaded three issues
before. -/
def retireLoad (c : Cpu β) (i : Instruction) (width : Width) (v : Quad) : Cpu β :=
  let last := c.loads.last .three
  let written := c.writeSlot i.dest last
  { written with loads := c.loads.advance .three (.ofBits (v.setWidth 64) (width = Width.double)) }.setFsr
    { c.control.fsr with lrp := last.double }

variable [Bus β]

/-- Loads to an integer register. -/
def ldInt (i : Instruction) : Exec β Unit := do
  let width := intWidth i
  let v ← readMem (effectiveAddr (← get) i width) width
  modify fun c => c.writeInt i.dest (extendLoaded width v)

/-- Stores from an integer register. -/
def stInt (i : Instruction) : Exec β Unit := do
  let c ← get
  let width := intWidth i
  let addr := c.readInt i.src2 + (i.splitOffset &&& width.alignMask)
  writeMem addr width ((c.readInt i.src1).setWidth 128)

/-- Loads to floating registers. -/
def fld (i : Instruction) : Exec β Unit := do
  let width := floatWidth i
  let addr := effectiveAddr (← get) i width
  let v ← readMem addr width
  modify fun c =>
    autoIncrement (c.setFloats (writeLoaded c.regs.floats i.dest width v)) i addr

/-- Loads to floating registers through the load pipe. There is no such load of a quad. -/
def pfld (i : Instruction) : Exec β Unit := do
  let width := floatWidth i
  if width = .quad then raise .instruction
  else
    let addr := effectiveAddr (← get) i width
    let v ← readMem addr width
    modify fun c => autoIncrement (retireLoad c i width v) i addr

/-- Stores from floating registers. -/
def fst (i : Instruction) : Exec β Unit := do
  let c ← get
  let width := floatWidth i
  let addr := effectiveAddr c i width
  writeMem addr width (readStored c.regs.floats i.dest width)
  modify fun c => autoIncrement c i addr

/-- Stores the pixels of a double that PM selects, and moves PM on to the next ones. -/
def pstD (i : Instruction) : Exec β Unit := do
  let c ← get
  let addr := effectiveAddr c i .double
  let size := c.control.psr.pixelSize
  let mask := Graphics.storeMask size c.control.psr.pm
  writeMasked addr (c.regs.floats.readPair i.dest) mask
  modify fun c =>
    let psr := c.control.psr
    autoIncrement (c.setPsr { psr with pm := psr.pm >>> size.perDouble }) i addr

end I860.Execute
