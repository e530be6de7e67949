import I860.Cpu.State
/-!
# Reporting

The counts that a processor and its caches keep are collected in a report, and counting
starts again.
-/

namespace I860

/-- What the instruction cache has counted. -/
def InstructionCache.counts (c : InstructionCache) : CacheCounts :=
  ⟨c.hits, c.misses, c.invalidations⟩

/-- What the memory management unit has counted. -/
def Mmu.counts (m : Mmu) : CacheCounts := ⟨m.hits, m.misses, m.flushes⟩

namespace Cpu

variable {β : Type}

/-- The report on a time given in nanoseconds. -/
def report (c : Cpu β) (nanoseconds : Nat) : Report :=
  c.stats.report c.icache.counts c.mmu.counts nanoseconds

/-- The processor with all counts started again. -/
def clearCounts (c : Cpu β) : Cpu β :=
  { c with stats := .zero, icache := c.icache.clearCounts, mmu := c.mmu.clearCounts }

end Cpu

end I860
