import I860.Board.Bus
import I860.Error
import I860.Sparse
/-!
# A bank of memory

One region of memory on an otherwise empty board: reads outside it give zero, writes
outside it are lost. An access that lies in the bank as a whole is served by one offset; any
other is taken apart into bytes, each of which finds its own place. The two ways agree, and
both are kept because an image is only ever loaded the first way.
-/

namespace I860

/-- `size` bytes of memory from the address `base` on, with the blanking levels last
reported to the board. -/
structure Ram where
  base : PhysAddr
  size : Nat
  cells : Sparse 64 Byte
  displayBlanked : Bool
  videoBlanked : Bool

namespace Ram

/-- A bank full of zeros. -/
def zeroed (base : PhysAddr) (size : Nat) : Ram :=
  ⟨base, size, Sparse.empty, false, false⟩

def isEmpty (r : Ram) : Bool := r.size == 0

/-- The byte at an offset from the base. -/
def cell (r : Ram) (offset : Nat) : Byte :=
  (r.cells.get? (BitVec.ofNat 64 offset)).getD 0#8

/-- The bank with another byte at an offset from the base. -/
def setCell (r : Ram) (offset : Nat) (b : Byte) : Ram :=
  { r with cells := r.cells.insert (BitVec.ofNat 64 offset) b }

/-- `count` bytes from an offset on. -/
def cellRange (r : Ram) (offset : Nat) : (count : Nat) → List Byte
  | 0 => []
  | n + 1 => r.cell offset :: r.cellRange (offset + 1) n

/-- The bank with other bytes from an offset on. -/
def setCellRange (r : Ram) (offset : Nat) : List Byte → Ram
  | [] => r
  | b :: rest => (r.setCell offset b).setCellRange (offset + 1) rest

/-- The whole contents. -/
def contents (r : Ram) : List Byte := r.cellRange 0 r.size

/-- The offset of an address, if it lies in the bank. The distance from the base wraps, so
a bank may reach past the top of the address space. -/
def offset? (r : Ram) (addr : PhysAddr) : Option Nat :=
  let offset := (addr - r.base).toNat
  if offset < r.size then some offset else none

def readByte (r : Ram) (addr : PhysAddr) : Byte :=
  match r.offset? addr with
  | some offset => r.cell offset
  | none => 0#8

def writeByte (r : Ram) (addr : PhysAddr) (b : Byte) : Ram :=
  match r.offset? addr with
  | some offset => r.setCell offset b
  | none => r

def readBytes (r : Ram) (addr : PhysAddr) (count : Nat) : List Byte :=
  match r.offset? addr with
  | some offset =>
      if offset + count ≤ r.size then r.cellRange offset count
      else loadEach r.readByte addr count
  | none => loadEach r.readByte addr count

def writeBytes (r : Ram) (addr : PhysAddr) (bytes : List Byte) : Ram :=
  match r.offset? addr with
  | some offset =>
      if offset + bytes.length ≤ r.size then r.setCellRange offset bytes
      else storeEach writeByte r addr bytes
  | none => storeEach writeByte r addr bytes

/-- The level last reported for a screen. -/
def isBlanked (r : Ram) : BlankSource → Bool
  | .display => r.displayBlanked
  | .video => r.videoBlanked

def blankChanged (r : Ram) (source : BlankSource) (level : Bool) : Ram :=
  match source with
  | .display => { r with displayBlanked := level }
  | .video => { r with videoBlanked := level }

instance : Bus Ram where
  name _ := "RAM"
  readByte := readByte
  writeByte := writeByte
  readBytes := readBytes
  writeBytes := writeBytes
  blankChanged := blankChanged

/-- Copies an image to `addr`. It has to lie in the bank as a whole, without wrapping. -/
def loadImage (r : Ram) (addr : PhysAddr) (image : List Byte) : Except HostError Ram :=
  let offset := addr.toNat - r.base.toNat
  if r.base.toNat ≤ addr.toNat ∧ offset + image.length ≤ r.size then
    .ok (r.setCellRange offset image)
  else
    .error (.imageTooLarge addr image.length)

end Ram

end I860
