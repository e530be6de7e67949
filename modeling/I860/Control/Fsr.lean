import I860.Float.RoundingMode
import I860.Word
/-!
# The floating-point status register

Rounding control, trap enables, exception flags of the two arithmetic units, and for each
pipe the precision of the result it retired last.

    0 FZ   1 TI   2-3 RM   4 U   5 FTE   6 -   7 SI   8 SE
    9 MU  10 MO  11 MI  12 MA  13 AU  14 AO  15 AI  16 AA
    17-21 RR   22-24 AE   27 LRP   28 IRP   29 MRP   30 ARP
-/

namespace I860

/-- The floating-point status register, field by field. -/
structure Fsr where
  /-- Flush underflows to zero. -/
  fz : Bool
  /-- Trap on inexact results. -/
  ti : Bool
  /-- Rounding mode. -/
  rm : RoundingMode
  /-- The next write updates the pipe flags. -/
  u : Bool
  /-- Floating-point traps are enabled. -/
  fte : Bool
  /-- Reserved bit 6. -/
  r6 : Bool
  /-- Sticky inexact. -/
  si : Bool
  /-- Source exception. -/
  se : Bool
  /-- Multiplier underflow. -/
  mu : Bool
  /-- Multiplier overflow. -/
  mo : Bool
  /-- Multiplier inexact. -/
  mi : Bool
  /-- Multiplier added one. -/
  ma : Bool
  /-- Adder underflow. -/
  au : Bool
  /-- Adder overflow. -/
  ao : Bool
  /-- Adder inexact. -/
  ai : Bool
  /-- Adder added one. -/
  aa : Bool
  /-- Result register. -/
  rr : BitVec 5
  /-- Adder exponent. -/
  ae : BitVec 3
  /-- Precision last retired by the load pipe. -/
  lrp : Bool
  /-- Precision last retired by the graphics pipe. -/
  irp : Bool
  /-- Precision last retired by the multiplier. -/
  mrp : Bool
  /-- Precision last retired by the adder. -/
  arp : Bool
  deriving DecidableEq, Repr

namespace Fsr

/-- The bits that a store changes. -/
def writable : Word := 0x003e01ef#32

def ofBits (v : Word) : Fsr where
  fz := v.getLsbD 0
  ti := v.getLsbD 1
  rm := RoundingMode.ofField (v.extractLsb' 2 2)
  u := v.getLsbD 4
  fte := v.getLsbD 5
  r6 := v.getLsbD 6
  si := v.getLsbD 7
  se := v.getLsbD 8
  mu := v.getLsbD 9
  mo := v.getLsbD 10
  mi := v.getLsbD 11
  ma := v.getLsbD 12
  au := v.getLsbD 13
  ao := v.getLsbD 14
  ai := v.getLsbD 15
  aa := v.getLsbD 16
  rr := v.extractLsb' 17 5
  ae := v.extractLsb' 22 3
  lrp := v.getLsbD 27
  irp := v.getLsbD 28
  mrp := v.getLsbD 29
  arp := v.getLsbD 30

def bits (r : Fsr) : Word :=
  flagBit r.fz 0 ||| flagBit r.ti 1 ||| (r.rm.field.setWidth 32 <<< 2) ||| flagBit r.u 4
    ||| flagBit r.fte 5 ||| flagBit r.r6 6 ||| flagBit r.si 7 ||| flagBit r.se 8
    ||| flagBit r.mu 9 ||| flagBit r.mo 10 ||| flagBit r.mi 11 ||| flagBit r.ma 12
    ||| flagBit r.au 13 ||| flagBit r.ao 14 ||| flagBit r.ai 15 ||| flagBit r.aa 16
    ||| (r.rr.setWidth 32 <<< 17) ||| (r.ae.setWidth 32 <<< 22)
    ||| flagBit r.lrp 27 ||| flagBit r.irp 28 ||| flagBit r.mrp 29 ||| flagBit r.arp 30

/-- The register after a store of `v`. -/
def write (r : Fsr) (v : Word) : Fsr :=
  ofBits ((v &&& writable) ||| (r.bits &&& ~~~writable))

end Fsr

end I860
