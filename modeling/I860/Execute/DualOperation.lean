import I860.Execute.Float
import I860.Isa.Route
/-!
# Dual operations

One instruction issues a multiplication and a sum or difference. A route chooses the
operands; all of them, and what goes into T and K, are taken from the state before the
instruction. The destination gets the last stage of the adder, or of the multiplier in the
forms without flag P.
-/

namespace I860.Execute

variable {β : Type}

/-- The multiplier as a dual operation uses it. -/
def dualMultiplier (i : Instruction) : FloatPipe :=
  .multiplier (multiplierDepth i.doubleSource false)

/-- What a dual operation retires to its destination. -/
def dualRetired (c : Cpu β) (i : Instruction) : PipeSlot :=
  lastStage c (if i.pipelined then .adder else dualMultiplier i)

/-- An operand of a dual operation. -/
def routed (c : Cpu β) (i : Instruction) : RouteSource → Double
  | .src1 => readOperand c.regs.floats i.src1 i.doubleSource
  | .src2 =>
      if i.dest = i.src2 then (dualRetired c i).toDouble
      else readOperand c.regs.floats i.src2 i.doubleSource
  | .kr => c.regs.kr
  | .ki => c.regs.ki
  | .t => c.regs.t
  | .adderLast => (lastStage c .adder).toDouble
  | .multiplierLast => (lastStage c (dualMultiplier i)).toDouble

/-- The product that a dual operation issues. -/
def dualProduct (c : Cpu β) (i : Instruction) : PipeSlot :=
  c.fpu.compute .mul (routed c i i.route.multiply1) (routed c i i.route.multiply2)
    i.doubleSource i.doubleResult

/-- The sum or difference that a dual operation issues. -/
def dualSum (c : Cpu β) (i : Instruction) : PipeSlot :=
  c.fpu.compute (if i.raw.getLsbD 4 then .sub else .add)
    (routed c i i.route.add1) (routed c i i.route.add2) i.doubleSource i.doubleResult

/-- The data registers with T and K loaded as the route says. -/
def loadRouted (c : Cpu β) (i : Instruction) : RegisterFile :=
  let route := i.route
  let k := readOperand c.regs.floats i.src1 i.doubleSource
  { c.regs with
    t := if route.loadsT then (lastStage c (dualMultiplier i)).toDouble else c.regs.t
    kr := if route.loadsK && !route.usesKi then k else c.regs.kr
    ki := if route.loadsK && route.usesKi then k else c.regs.ki }

/-- The dual operations. -/
def dualOp (i : Instruction) : Exec β Unit :=
  guarded (isDoubleToSingle i) fun c =>
    let loaded := { c with regs := loadRouted c i }.writeSlot i.dest (dualRetired c i)
    let added :=
      advance (setPrecision loaded .adder (lastStage c .adder).double) .adder (dualSum c i)
    let multiplier := dualMultiplier i
    advance (setPrecision added multiplier (lastStage c multiplier).double) multiplier
      (dualProduct c i)

end I860.Execute
