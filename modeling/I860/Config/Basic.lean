import I860.Board.Address
import I860.Error
/-!
# Configurations

What a processor, its run loop and its memory are set up with. Every setting has a default.
Some settings have ranges that their types do not say; `problem?` finds the first that is out
of its range.
-/

namespace I860

/-- General settings. -/
structure GeneralConfig where
  traceInstructions : Bool
  /-- Where the program starts after a reset. -/
  startPc : Word
  deriving DecidableEq, Repr

/-- Settings of the processor. -/
structure CoreConfig where
  icacheLines : Nat
  tlbSets : Nat
  /-- Operands that are not aligned raise a trap. -/
  trapMisaligned : Bool
  /-- Reciprocals of what has none raise a trap. -/
  sourceExceptionTraps : Bool
  /-- What registers hold after a reset, joined with their numbers. -/
  undefinedPattern : Word
  processorType : Byte
  stepping : Byte
  deriving DecidableEq, Repr

/-- Settings of the run loop. -/
structure RunConfig where
  /-- Steps between two collections of messages. -/
  batchSize : Nat
  /-- How long a halted loop waits before it looks again, in milliseconds. -/
  haltPollMs : Nat
  deriving DecidableEq, Repr

/-- Settings of the memory. -/
structure MemoryConfig where
  ramBase : Word
  ramSize : Nat
  deriving DecidableEq, Repr

/-- All settings. -/
structure Config where
  general : GeneralConfig
  core : CoreConfig
  run : RunConfig
  memory : MemoryConfig
  deriving DecidableEq, Repr

/-- Why a configuration cannot be used. -/
inductive ConfigProblem where
  | icacheLines (n : Nat)
  | tlbSets (n : Nat)
  | stepping (n : Nat)
  | batchSize
  | ramSize
  deriving DecidableEq, Repr

def ConfigProblem.message : ConfigProblem → String
  | .icacheLines n => "core.icache_lines must be a power of two, got " ++ toString n
  | .tlbSets n => "core.tlb_sets must be a power of two, got " ++ toString n
  | .stepping n => "core.stepping must fit in 5 bits, got " ++ toString n
  | .batchSize => "run.batch_size must be non-zero"
  | .ramSize => "memory.ram_size must be non-zero"

namespace Config

/-- The settings where nothing else is said. -/
def default : Config where
  general := ⟨false, trapVector⟩
  core := ⟨512, 256, true, false, 0xdeadbe00#32, 1#8, 3#8⟩
  run := ⟨64, 10⟩
  memory := ⟨0#32, 32 * 1024 * 1024⟩

/-- The first setting that is out of its range. -/
def problem? (c : Config) : Option ConfigProblem :=
  if !isPowerOfTwo c.core.icacheLines then some (.icacheLines c.core.icacheLines)
  else if !isPowerOfTwo c.core.tlbSets then some (.tlbSets c.core.tlbSets)
  else if 0x1f#8 < c.core.stepping then some (.stepping c.core.stepping.toNat)
  else if c.run.batchSize = 0 then some .batchSize
  else if c.memory.ramSize = 0 then some .ramSize
  else none

/-- The configuration if all settings are in their ranges. -/
def validate (c : Config) : Except HostError Config :=
  match c.problem? with
  | some problem => .error (.config problem.message)
  | none => .ok c

end Config

end I860
