import I860.Board.Bus
import I860.Sparse
/-!
# Open memory

A board on which every address holds a byte of memory, zero until written. It is the plain
memory that statements about the processor are made over.
-/

namespace I860

/-- A byte of memory at each of the 2³² addresses. -/
structure OpenMemory where
  cells : Sparse 32 Byte
  deriving DecidableEq

namespace OpenMemory

/-- Memory that was never written. -/
def blank : OpenMemory := ⟨Sparse.empty⟩

def readByte (m : OpenMemory) (addr : PhysAddr) : Byte :=
  (m.cells.get? addr).getD 0#8

def writeByte (m : OpenMemory) (addr : PhysAddr) (b : Byte) : OpenMemory :=
  ⟨m.cells.insert addr b⟩

theorem readByte_blank (a : PhysAddr) : blank.readByte a = 0#8 := by
  simp [blank, readByte]

theorem readByte_writeByte (m : OpenMemory) (a a' : PhysAddr) (b : Byte) :
    (m.writeByte a b).readByte a' = if a = a' then b else m.readByte a' := by
  simp only [readByte, writeByte, Sparse.get?_insert]
  split <;> rfl

instance : Bus OpenMemory where
  name _ := "sparse"
  readByte := readByte
  writeByte := writeByte

end OpenMemory

end I860
