import I860.Cpu.State
/-!
# Floating-point instructions

A scalar instruction writes its result to its destination. A pipelined one puts its result
into a pipe and writes to its destination what comes out at the other end, with the precision
that came out.

If a pipelined instruction has the same register as destination and second source, the second
source is what it retires: the register is written and read in this order. The first source
is always read before.
-/

namespace I860

/-- What a floating-point unit computes. -/
inductive FloatOp where
  | add
  | sub
  | mul
  deriving DecidableEq, Repr

/-- The pipe that an instruction issues to. -/
inductive FloatPipe where
  | adder
  | multiplier (depth : PipeDepth)
  | graphics
  deriving DecidableEq, Repr

namespace FloatPipe

def depth : FloatPipe → PipeDepth
  | .adder => .three
  | .multiplier depth => depth
  | .graphics => .one

end FloatPipe

/-- A result of a unit: computed with the precision of the sources, then brought to that of
the result. -/
def FloatUnit.compute (u : FloatUnit) (op : FloatOp) (x y : Double)
    (doubleSource doubleResult : Bool) : PipeSlot :=
  if doubleSource then
    let v := match op with
      | .add => u.addDouble x y
      | .sub => u.subDouble x y
      | .mul => u.mulDouble x y
    if doubleResult then .ofDouble v else .ofSingle (u.narrow v)
  else
    let x := narrowNearest x
    let y := narrowNearest y
    let v := match op with
      | .add => u.addSingle x y
      | .sub => u.subSingle x y
      | .mul => u.mulSingle x y
    if doubleResult then .ofDouble (widen v) else .ofSingle v

namespace Execute

variable {β : Type}

/-- A floating register read with the given precision, as a 64-bit number. -/
def readOperand (r : FloatRegs) (i : RegNum) (double : Bool) : Double :=
  if double then r.readPair i else widen (r.readLane i)

/-- The last stage of a pipe before anything moves. -/
def lastStage (c : Cpu β) : FloatPipe → PipeSlot
  | .adder => c.adder.last .three
  | .multiplier depth => c.multiplier.last depth
  | .graphics => c.graphics.last .one

/-- Puts a result into a pipe. -/
def advance (c : Cpu β) (pipe : FloatPipe) (result : PipeSlot) : Cpu β :=
  match pipe with
  | .adder => { c with adder := c.adder.advance .three result }
  | .multiplier depth => { c with multiplier := c.multiplier.advance depth result }
  | .graphics => { c with graphics := c.graphics.advance .one result }

/-- Records the precision of what a pipe retires. -/
def setPrecision (c : Cpu β) (pipe : FloatPipe) (double : Bool) : Cpu β :=
  let fsr := c.control.fsr
  match pipe with
  | .adder => c.setFsr { fsr with arp := double }
  | .multiplier _ => c.setFsr { fsr with mrp := double }
  | .graphics => c.setFsr { fsr with irp := double }

/-- Delivers a result, directly or through a pipe. -/
def issue (c : Cpu β) (i : Instruction) (pipe : FloatPipe) (pipelined : Bool)
    (result : PipeSlot) : Cpu β :=
  if pipelined then
    let last := lastStage c pipe
    advance (setPrecision (c.writeSlot i.dest last) pipe last.double) pipe result
  else c.writeSlot i.dest result

/-- The second source, which a pipelined instruction may take from its pipe. -/
def secondOperand (c : Cpu β) (i : Instruction) (pipe : FloatPipe) (pipelined : Bool) : Double :=
  if pipelined && i.dest == i.src2 then (lastStage c pipe).toDouble
  else readOperand c.regs.floats i.src2 i.doubleSource

/-- An instruction that computes with two sources. -/
def binary (op : FloatOp) (pipe : FloatPipe) (pipelined : Bool) (i : Instruction) (c : Cpu β) :
    Cpu β :=
  let x := readOperand c.regs.floats i.src1 i.doubleSource
  let y := secondOperand c i pipe pipelined
  issue c i pipe pipelined (c.fpu.compute op x y i.doubleSource i.doubleResult)

/-- Double sources with a single result: most instructions have no such form. -/
def isDoubleToSingle (i : Instruction) : Bool := i.doubleSource && !i.doubleResult

/-- Double sources and a double result: some instructions have only this form. -/
def isDoubleToDouble (i : Instruction) : Bool := i.doubleSource && i.doubleResult

/-- An instruction that raises a trap in one of its forms and otherwise only computes. -/
def guarded (refused : Bool) (compute : Cpu β → Cpu β) : Exec β Unit :=
  if refused then raise .instruction else modify compute

/-- `fmul`. -/
def fmul (i : Instruction) : Exec β Unit :=
  guarded (isDoubleToSingle i)
    (binary .mul (.multiplier (multiplierDepth i.doubleSource false)) i.pipelined i)

/-- `pfmul3`: a multiplication that passes through three stages. -/
def pfmul3 (i : Instruction) : Exec β Unit :=
  guarded (!isDoubleToDouble i) (binary .mul (.multiplier (multiplierDepth true true)) true i)

/-- The product of the low words of two doubles, cut off to the 53 bits of a significand, with
the sign that the product of the doubles has. -/
def lowProduct (x y : Double) : Double :=
  let product := (x.setWidth 32).setWidth 64 * (y.setWidth 32).setWidth 64
  (product &&& 0x001fffffffffffff#64) ||| ((x ^^^ y) &&& 0x8000000000000000#64)

/-- `fmlow`. -/
def fmlow (i : Instruction) : Exec β Unit :=
  guarded (!isDoubleToDouble i) fun c =>
    let r := c.regs.floats
    c.setFloats (r.writePair i.dest (lowProduct (r.readPair i.src1) (r.readPair i.src2)))

/-- Whether a number has no reciprocal, or no reciprocal of its square root. -/
def lacksReciprocal (root : Bool) (v : Double) : Bool :=
  binary64.isZero v || (root && binary64.isBelowZero v)

/-- The reciprocal, of the number or of its square root, in a few leading bits. -/
def reciprocalBits (u : FloatUnit) (root double : Bool) (v : Double) : PipeSlot :=
  let r := u.divDouble 0x3ff0000000000000#64 (if root then u.sqrtDouble v else v)
  if double then .ofDouble (r &&& 0xfffff00000000000#64)
  else .ofSingle (u.narrow r &&& 0xffff8000#32)

/-- `frcp` and `frsqr`. -/
def reciprocal (root : Bool) (i : Instruction) : Exec β Unit := do
  if isDoubleToSingle i then raise .instruction
  else
    let c ← get
    let v := readOperand c.regs.floats i.src2 i.doubleSource
    if lacksReciprocal root v && c.params.sourceExceptionTraps && c.control.fsr.fte then
      modify fun c => c.setFsr { c.control.fsr with se := true }
      raise .floatingPoint
    else modify fun c => c.writeSlot i.dest (reciprocalBits c.fpu root i.doubleResult v)

/-- `fadd`. -/
def fadd (i : Instruction) : Exec β Unit :=
  guarded (isDoubleToSingle i) (binary .add .adder i.pipelined i)

/-- `fsub`. -/
def fsub (i : Instruction) : Exec β Unit :=
  guarded (isDoubleToSingle i) (binary .sub .adder i.pipelined i)

/-- `fix` and `ftrunc`: an integer in the low word of a double. -/
def fix (truncate : Bool) (i : Instruction) (c : Cpu β) : Cpu β :=
  let v := c.fpu.toInt (readOperand c.regs.floats i.src1 i.doubleSource) truncate
  issue c i .adder i.pipelined (.ofBits ((BitVec.ofInt 32 v).setWidth 64) true)

/-- `famov`: a number through the adder, brought to the precision of the result. -/
def famov (i : Instruction) : Exec β Unit :=
  guarded (isDoubleToSingle i) fun c =>
    let v := readOperand c.regs.floats i.src1 i.doubleSource
    issue c i .adder i.pipelined
      (if i.doubleResult then .ofDouble v else .ofSingle (narrowNearest v))

/-- The two sources of a compare, with the precision of the instruction. -/
def compareOperands (c : Cpu β) (i : Instruction) : Double × Double :=
  let x := readOperand c.regs.floats i.src1 i.doubleSource
  let y := secondOperand c i .adder i.pipelined
  if i.doubleSource then (x, y) else (widen (narrowNearest x), widen (narrowNearest y))

/-- Sets the condition code to what a compare found. In dual mode the next conditional branch
sees it at once. -/
def setCompare (i : Instruction) (found : Bool) (c : Cpu β) : Cpu β :=
  let coded := c.setPsr { c.control.psr with cc := found }
  let noted :=
    if c.dual.isDual then { coded with compareCode := found, comparePending := true } else coded
  if i.pipelined then issue noted i .adder true (.ofBits 0#64 i.doubleSource) else noted

/-- `pfgt`, and with flag R `pfle`, which finds what is not less or equal. -/
def pfgt (i : Instruction) (c : Cpu β) : Cpu β :=
  let (x, y) := compareOperands c i
  setCompare i (if i.doubleResult then !binary64.le x y else binary64.lt y x) c

/-- `pfeq`. -/
def pfeq (i : Instruction) (c : Cpu β) : Cpu β :=
  let (x, y) := compareOperands c i
  setCompare i (binary64.eq x y) c

/-- `fxfr`: a floating register to an integer register. -/
def fxfr (i : Instruction) (c : Cpu β) : Cpu β :=
  c.writeInt i.dest (c.regs.floats.readLane i.src1)

end Execute

end I860
