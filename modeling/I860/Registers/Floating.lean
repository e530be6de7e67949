import I860.Decimal.Scientific
import I860.Text.Hex
import I860.Word
/-!
# Floating-point registers

Thirty-two lanes of one word. A single register is a lane; a double register is an even lane
and the odd one after it, the even lane holding the low word, and an odd number names the pair
it lies in. Lanes 0 and 1 read as zero and ignore what is written to them.

A load of several lanes goes past that rule: it fills the lanes it is told to and then clears
lanes 0 and 1, so that they are zero again whenever an instruction has ended.
-/

namespace I860

/-- The floating-point registers. -/
structure FloatRegs where
  lanes : Vector Word 32
  deriving DecidableEq, Repr

namespace FloatRegs

/-- All registers zero. -/
def zero : FloatRegs := ⟨Vector.replicate 32 0#32⟩

/-- The even lane of the pair that a lane lies in. -/
def evenLane (i : RegNum) : RegNum := ⟨i.val / 2 * 2, by omega⟩

/-- The odd lane of the pair that a lane lies in. -/
def oddLane (i : RegNum) : RegNum := ⟨i.val / 2 * 2 + 1, by omega⟩

def readLane (r : FloatRegs) (i : RegNum) : Word := if i.val < 2 then 0#32 else r.lanes[i]

/-- The double register that lane `i` lies in. -/
def readPair (r : FloatRegs) (i : RegNum) : Double :=
  if i.val < 2 then 0#64 else r.lanes[oddLane i] ++ r.lanes[evenLane i]

def writeLane (r : FloatRegs) (i : RegNum) (v : Word) : FloatRegs :=
  if i.val < 2 then r else ⟨r.lanes.set i v⟩

/-- Writes the double register that lane `i` lies in. -/
def writePair (r : FloatRegs) (i : RegNum) (v : Double) : FloatRegs :=
  if i.val < 2 then r
  else ⟨(r.lanes.set (evenLane i) (v.setWidth 32)).set (oddLane i) ((v >>> 32).setWidth 32)⟩

/-- The lane at which a group of `count` lanes begins that lane `i` lies in: groups are
aligned to the least power of two that holds them. -/
def groupBase (i : RegNum) (count : Nat) : Nat := i.val - i.val % 2 ^ ceilLog2 count

/-- The lanes with consecutive ones filled from `base` on, around the end of the file. -/
def fillFrom (lanes : Vector Word 32) (base : Nat) : List Word → Vector Word 32
  | [] => lanes
  | v :: rest => fillFrom (lanes.set (Fin.ofNat 32 base) v) (base + 1) rest

/-- Fills the group of lanes that lane `i` lies in, then clears lanes 0 and 1. -/
def loadGroup (r : FloatRegs) (i : RegNum) (words : List Word) : FloatRegs :=
  let filled := fillFrom r.lanes (groupBase i words.length) words
  ⟨(filled.set (0 : RegNum) 0#32).set (1 : RegNum) 0#32⟩

/-- The group of `count` lanes that lane `i` lies in. -/
def readGroup (r : FloatRegs) (i : RegNum) (count : Nat) : List Word :=
  (List.range count).map fun k => r.readLane (Fin.ofNat 32 (groupBase i count + k))

/-- The contents after a reset: each lane from 2 on holds the pattern joined with its
number. -/
def undefinedFill (pattern : Word) : FloatRegs :=
  ⟨Vector.ofFn fun i => if i.val < 2 then 0#32 else pattern ||| BitVec.ofNat 32 i⟩

/-- One double register in dumps: its two lanes, high word first, and its value. -/
def dumpPair (r : FloatRegs) (even : RegNum) : String :=
  let name (i : RegNum) := "f" ++ Text.padRight 2 (toString i.val)
  name (oddLane even) ++ ":" ++ name even ++ "=" ++ Text.hexOf (r.readLane (oddLane even)) ++ "_"
    ++ Text.hexOf (r.readLane even) ++ " (" ++ Text.padLeft ' ' 14 (Decimal.scientific (r.readPair even))
    ++ ")  "

/-- All registers as doubles, two to a line. -/
def dump (r : FloatRegs) : String :=
  String.join <| (List.finRange 16).map fun k =>
    r.dumpPair ⟨2 * k.val, by omega⟩ ++ (if k.val % 2 = 1 then "\n" else "")

end FloatRegs

end I860
