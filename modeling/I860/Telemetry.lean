import I860.Decimal.Fixed
import I860.Float.Exact
import I860.Float.Order
/-!
# Telemetry

Counts of what a processor did since the last report, and the report that turns them into
rates. Rates are 64-bit numbers, computed and rounded like any other.
-/

namespace I860

/-- Counts since the last report. -/
structure Stats where
  steps : Nat
  /-- Instructions that ran to their end. -/
  instructions : Nat
  /-- Traps entered, interrupts among them. -/
  traps : Nat
  interrupts : Nat
  deriving DecidableEq, Repr

namespace Stats

def zero : Stats := ⟨0, 0, 0, 0⟩

end Stats

/-- Hits, misses and emptyings of a cache. -/
structure CacheCounts where
  hits : Nat
  misses : Nat
  flushes : Nat
  deriving DecidableEq, Repr

namespace CacheCounts

/-- The share of hits in percent; zero if nothing was counted. -/
def hitPercent (c : CacheCounts) : Double :=
  let total := c.hits + c.misses
  if total = 0 then 0#64
  else binary64.div (binary64.mul (binary64.ofNat c.hits) (binary64.ofNat 100)) (binary64.ofNat total)

end CacheCounts

/-- One report. -/
structure Report where
  /-- Instructions per microsecond. -/
  mips : Double
  icachePercent : Double
  tlbPercent : Double
  /-- Emptyings of the instruction cache and the lookaside buffer per second. -/
  invalidationsPerSecond : Double
  interruptsPerSecond : Double
  traps : Nat
  deriving DecidableEq, Repr

namespace Report

def mipsText (r : Report) : String := Decimal.fixed 2 r.mips ++ " MIPS"

def icacheText (r : Report) : String := "icache " ++ Decimal.fixed 1 r.icachePercent ++ "%"

def tlbText (r : Report) : String := "tlb " ++ Decimal.fixed 1 r.tlbPercent ++ "%"

def trapsText (r : Report) : String := toString r.traps ++ " traps"

/-- The report on one line. -/
def text (r : Report) : String :=
  ", ".intercalate
    [r.mipsText, r.icacheText, r.tlbText,
      Decimal.fixed 0 r.invalidationsPerSecond ++ " inval/s",
      Decimal.fixed 0 r.interruptsPerSecond ++ " irq/s", r.trapsText]

end Report

/-- The report on what was counted over a time given in nanoseconds. -/
def Stats.report (s : Stats) (icache tlb : CacheCounts) (nanoseconds : Nat) : Report :=
  let million := binary64.ofNat 1000000
  let elapsed := binary64.div (binary64.ofNat nanoseconds) (binary64.ofNat 1000000000)
  let seconds := if binary64.isZero elapsed then 0x0010000000000000#64 else elapsed
  { mips := binary64.div (binary64.ofNat s.instructions) (binary64.mul seconds million)
    icachePercent := icache.hitPercent
    tlbPercent := tlb.hitPercent
    invalidationsPerSecond := binary64.div (binary64.ofNat (icache.flushes + tlb.flushes)) seconds
    interruptsPerSecond := binary64.div (binary64.ofNat s.interrupts) seconds
    traps := s.traps }

end I860
