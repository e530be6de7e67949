import I860.Trap
import I860.Word
/-!
# The processor status register

It holds the condition codes, the privilege and interrupt enables with a copy of each from
before the last trap, one status bit for each class of trap, and the pixel state of the
graphics instructions. Bit 16 is not there: it reads as zero whatever is written.

    0 BR   1 BW   2 CC   3 LCC   4 IM   5 PIM   6 U   7 PU
    8 IT   9 IN  10 IAT 11 DAT  12 FT  13 DS   14 DIM 15 KNF
    17-21 SC   22-23 PS   24-31 PM
-/

namespace I860

/-- How wide a pixel is. -/
inductive PixelSize where
  | bits8
  | bits16
  | bits32
  deriving DecidableEq, Repr

namespace PixelSize

/-- How many pixels a 64-bit operand holds. -/
def perDouble : PixelSize → Nat
  | .bits8 => 8
  | .bits16 => 4
  | .bits32 => 2

end PixelSize

/-- The processor status register, field by field. -/
structure Psr where
  /-- Break on reads of the data breakpoint. -/
  br : Bool
  /-- Break on writes of the data breakpoint. -/
  bw : Bool
  /-- Condition code. -/
  cc : Bool
  /-- Loop condition code. -/
  lcc : Bool
  /-- Interrupts are accepted. -/
  im : Bool
  /-- `im` before the last trap. -/
  pim : Bool
  /-- User mode. -/
  u : Bool
  /-- `u` before the last trap. -/
  pu : Bool
  /-- Status of instruction traps. -/
  it : Bool
  /-- Status of interrupts. -/
  inr : Bool
  /-- Status of instruction access traps. -/
  iat : Bool
  /-- Status of data access traps. -/
  dat : Bool
  /-- Status of floating-point traps. -/
  ft : Bool
  /-- Delayed switch of dual-instruction mode. -/
  ds : Bool
  /-- Dual-instruction mode. -/
  dim : Bool
  /-- Kill the next floating-point instruction. -/
  knf : Bool
  /-- The shift count that `shrd` uses. -/
  sc : BitVec 5
  /-- Pixel size field. -/
  ps : BitVec 2
  /-- Pixel mask. -/
  pm : Byte
  deriving DecidableEq, Repr

namespace Psr

/-- The bits that a write from user mode leaves alone: IM, PIM, U and PU. -/
def supervisorOnly : Word := 0x000000f0#32

/-- The status bits of the five classes of trap. -/
def trapBits : Word := 0x00001f00#32

def ofBits (v : Word) : Psr where
  br := v.getLsbD 0
  bw := v.getLsbD 1
  cc := v.getLsbD 2
  lcc := v.getLsbD 3
  im := v.getLsbD 4
  pim := v.getLsbD 5
  u := v.getLsbD 6
  pu := v.getLsbD 7
  it := v.getLsbD 8
  inr := v.getLsbD 9
  iat := v.getLsbD 10
  dat := v.getLsbD 11
  ft := v.getLsbD 12
  ds := v.getLsbD 13
  dim := v.getLsbD 14
  knf := v.getLsbD 15
  sc := v.extractLsb' 17 5
  ps := v.extractLsb' 22 2
  pm := v.extractLsb' 24 8

def bits (r : Psr) : Word :=
  flagBit r.br 0 ||| flagBit r.bw 1 ||| flagBit r.cc 2 ||| flagBit r.lcc 3
    ||| flagBit r.im 4 ||| flagBit r.pim 5 ||| flagBit r.u 6 ||| flagBit r.pu 7
    ||| flagBit r.it 8 ||| flagBit r.inr 9 ||| flagBit r.iat 10 ||| flagBit r.dat 11
    ||| flagBit r.ft 12 ||| flagBit r.ds 13 ||| flagBit r.dim 14 ||| flagBit r.knf 15
    ||| (r.sc.setWidth 32 <<< 17) ||| (r.ps.setWidth 32 <<< 22) ||| (r.pm.setWidth 32 <<< 24)

/-- The register after a store of `v`, made from user mode or not. -/
def write (r : Psr) (v : Word) (user : Bool) : Psr :=
  if user then ofBits ((v &&& ~~~supervisorOnly) ||| (r.bits &&& supervisorOnly))
  else ofBits v

/-- Whether the status bit of any class of trap is set. -/
def anyTrap (r : Psr) : Bool := r.it || r.inr || r.iat || r.dat || r.ft

/-- The register with all trap status bits clear. -/
def clearTraps (r : Psr) : Psr :=
  { r with it := false, inr := false, iat := false, dat := false, ft := false }

/-- The register with the status bit of one class of trap set. -/
def setTrap (r : Psr) : TrapKind → Psr
  | .instruction => { r with it := true }
  | .instructionAccess => { r with iat := true }
  | .dataAccess => { r with dat := true }
  | .floatingPoint => { r with ft := true }
  | .interrupt => { r with inr := true }

/-- The pixel size; one value of the field means none. -/
def pixelSize? (r : Psr) : Option PixelSize :=
  if r.ps = 0#2 then some .bits8 else if r.ps = 1#2 then some .bits16
  else if r.ps = 2#2 then some .bits32 else none

/-- The pixel size that instructions work with: eight bits where the field means none. -/
def pixelSize (r : Psr) : PixelSize := r.pixelSize?.getD .bits8

end Psr

end I860
