import I860.Execute.Float
import I860.Graphics
/-!
# Graphics instructions

They take floating registers as plain bits, and their pipe has a single stage. Those on pixels
and depth values work on 64 bits whatever precision the word says.
-/

namespace I860.Execute

variable {β : Type}

/-- The bits of a floating register of the given precision. -/
def readBits (r : FloatRegs) (i : RegNum) (double : Bool) : Double :=
  if double then r.readPair i else (r.readLane i).setWidth 64

/-- The bits of the second source, which a pipelined instruction may take from its pipe. -/
def secondBits (c : Cpu β) (i : Instruction) (double : Bool) : Double :=
  if i.pipelined && i.dest == i.src2 then (lastStage c .graphics).bits
  else readBits c.regs.floats i.src2 double

/-- `fiadd` and `fisub`. -/
def integerSum (subtract : Bool) (i : Instruction) (c : Cpu β) : Cpu β :=
  let x := readBits c.regs.floats i.src1 i.doubleSource
  let y := secondBits c i i.doubleSource
  issue c i .graphics i.pipelined (.ofBits (if subtract then x - y else x + y) i.doubleSource)

/-- A sum that is taken into MERGE. -/
def mergingSum (rule : Graphics.MergeRule) (i : Instruction) (c : Cpu β) : Cpu β :=
  let sum := readBits c.regs.floats i.src1 true + secondBits c i true
  let merged := { c with regs := { c.regs with merge := rule.apply c.regs.merge sum } }
  issue merged i .graphics i.pipelined (.ofBits sum true)

/-- `faddp`. -/
def faddp (i : Instruction) (c : Cpu β) : Cpu β :=
  mergingSum (Graphics.pixelRule c.control.psr.pixelSize) i c

/-- `faddz`. -/
def faddz (i : Instruction) (c : Cpu β) : Cpu β := mergingSum Graphics.depthRule i c

/-- `form`: joins a register with MERGE, and clears MERGE. -/
def form (i : Instruction) (c : Cpu β) : Cpu β :=
  let value := readBits c.regs.floats i.src1 true ||| c.regs.merge
  let cleared := { c with regs := { c.regs with merge := 0#64 } }
  issue cleared i .graphics i.pipelined (.ofBits value true)

/-- `fzchkl` and `fzchks`: depth checks, which leave in PM which pixels are nearer. -/
def depthCheck (long : Bool) (i : Instruction) (c : Cpu β) : Cpu β :=
  let x := readBits c.regs.floats i.src1 true
  let y := secondBits c i true
  let psr := c.control.psr
  let (value, pm) :=
    if long then Graphics.depthCheck32 x y psr.pm else Graphics.depthCheck16 x y psr.pm
  issue (c.setPsr { psr with pm := pm }) i .graphics i.pipelined (.ofBits value true)

end I860.Execute
