import I860.Config.Basic
import I860.Cpu.SelfTest
import I860.Cpu.State
/-!
# Reset

A processor is built from a board and a configuration, and a reset brings it back to where it
was then. What belongs to the host stays as it is: the board, the level of the interrupt pin,
the counts for telemetry and the listing for dumps. The caches are emptied and count that.
-/

namespace I860

/-- What a configuration says about the processor itself. -/
def CpuParams.ofConfig (config : Config) : CpuParams where
  startPc := config.general.startPc
  trapMisaligned := config.core.trapMisaligned
  sourceExceptionTraps := config.core.sourceExceptionTraps
  undefinedPattern := config.core.undefinedPattern
  processorType := config.core.processorType
  stepping := config.core.stepping.setWidth 5

namespace Cpu

variable {β : Type}

/-- The processor before its first reset. -/
def powerUp (board : β) (config : Config) : Cpu β where
  regs := .zero
  control := .zero
  pc := config.general.startPc
  adder := .empty
  multiplier := .empty
  loads := .empty
  graphics := .empty
  dual := .none
  compareCode := false
  comparePending := false
  saved := .initial
  mmu := .new config.core.tlbSets
  icache := .new config.core.icacheLines
  irqLine := false
  stats := .zero
  flags := .initial
  resumeCapable := false
  faultAddrHeld := false
  order := .little
  fpu := .initial
  listing := none
  params := .ofConfig config
  board := board

/-- The control registers after a reset: zero but for what identifies the processor and for
the level of the interrupt pin. -/
def resetControl (c : Cpu β) : ControlFile :=
  { ControlFile.zero with
    epsr :=
      { Epsr.ofBits 0#32 with
        processorType := c.params.processorType
        stepping := c.params.stepping
        int := c.irqLine } }

/-- A reset. -/
def reset (c : Cpu β) : Cpu β :=
  { c with
    regs := .undefinedFill c.params.undefinedPattern
    control := c.resetControl
    pc := c.params.startPc
    adder := .empty
    multiplier := .empty
    loads := .empty
    graphics := .empty
    dual := .none
    compareCode := false
    comparePending := false
    saved := .initial
    flags := .initial
    resumeCapable := false
    faultAddrHeld := false
    order := .little
    fpu := c.fpu.setRounding .nearest
    mmu := c.mmu.flush
    icache := c.icache.invalidate }

/-- A processor on a board, ready to run; none if the configuration cannot be used. -/
def new (board : β) (config : Config) : Except HostError (Cpu β) := do
  let config ← config.validate
  selfTest
  return (powerUp board config).reset

end Cpu

end I860
