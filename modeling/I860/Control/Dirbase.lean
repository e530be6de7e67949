import I860.Word
/-!
# The directory base register

It enables paging and says where the page directory lies. ITI is a command and not a
value: storing it empties the lookaside buffer and the instruction cache, and it reads
back as zero.

    0 ATE   1-3 DPS   4 BL   5 ITI   6 LB   7 CS8   8-9 RB   10-11 RC   12-31 DTB
-/

namespace I860

/-- The directory base register, field by field. -/
structure Dirbase where
  /-- Addresses are translated. -/
  ate : Bool
  /-- Page size of the memory chips. -/
  dps : BitVec 3
  /-- Bus lock. -/
  bl : Bool
  /-- Invalidate the lookaside buffer and the instruction cache. -/
  iti : Bool
  /-- Reserved bit 6. -/
  lb : Bool
  /-- Code is fetched through eight-bit memory. -/
  cs8 : Bool
  /-- Replacement block. -/
  rb : BitVec 2
  /-- Replacement control. -/
  rc : BitVec 2
  /-- The address of the page directory. -/
  dtb : Word
  deriving DecidableEq, Repr

namespace Dirbase

/-- The bits of the page directory's address. -/
def frameBits : Word := 0xfffff000#32

def ofBits (v : Word) : Dirbase where
  ate := v.getLsbD 0
  dps := v.extractLsb' 1 3
  bl := v.getLsbD 4
  iti := v.getLsbD 5
  lb := v.getLsbD 6
  cs8 := v.getLsbD 7
  rb := v.extractLsb' 8 2
  rc := v.extractLsb' 10 2
  dtb := v &&& frameBits

def bits (r : Dirbase) : Word :=
  flagBit r.ate 0 ||| (r.dps.setWidth 32 <<< 1) ||| flagBit r.bl 4 ||| flagBit r.iti 5
    ||| flagBit r.lb 6 ||| flagBit r.cs8 7 ||| (r.rb.setWidth 32 <<< 8)
    ||| (r.rc.setWidth 32 <<< 10) ||| (r.dtb &&& frameBits)

/-- The address of an entry of the page directory. -/
def directoryEntry (r : Dirbase) (index : Word) : Word :=
  r.dtb ||| ((index &&& 0x3ff#32) <<< 2)

end Dirbase

end I860
