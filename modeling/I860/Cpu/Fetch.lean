import I860.Cpu.Memory
/-!
# Fetching instructions

Instructions are fetched in aligned pairs through the instruction cache. They are
little-endian whatever the byte order of data is.
-/

namespace I860

variable {β : Type} [Bus β]

/-- The word of a pair that an address selects. -/
def wordOfPair (pc : VirtAddr) (pair : Double) : Word :=
  if pc.getLsbD 2 then (pair >>> 32).setWidth 32 else pair.setWidth 32

/-- Fetches the pair that an address lies in from memory, and keeps it. -/
def fetchPair (pc : VirtAddr) : Exec β Double := do
  let paddr ← translate (InstructionCache.pairAddr pc) .fetch
  let c ← get
  let pair := (Bus.load .little c.board paddr .double).setWidth 64
  set { c with icache := c.icache.fill pc pair }
  return pair

/-- Fetches the instruction at `pc`. -/
def fetch (pc : VirtAddr) : Exec β Word := do
  let c ← get
  let (kept, icache) := c.icache.lookup pc
  set { c with icache := icache }
  match kept with
  | some pair => return wordOfPair pc pair
  | none => return wordOfPair pc (← fetchPair pc)

/-- Fetches the instruction at `pc` for a debugger: a fetch that faults leaves no trace in the
trap status bits. -/
def Cpu.inspectInstruction (c : Cpu β) (pc : VirtAddr) : Option Word × Cpu β :=
  let restore (after : Cpu β) : Cpu β :=
    after.setPsr
      (Psr.ofBits ((after.control.psr.bits &&& ~~~Psr.trapBits)
        ||| (c.control.psr.bits &&& Psr.trapBits)))
  match fetch pc c with
  | .ok word after => (some word, restore after)
  | .error _ after => (none, restore after)

end I860
