import I860.Word
import I860.Text.Hex
/-!
# Addresses

Memory is divided into pages of 4096 bytes. A virtual address is what an instruction
computes; a physical address is what the board sees. Of the two, the low twelve
bits are the same; the rest is looked up in the page tables, ten bits at a time.
-/

namespace I860

/-- An address as an instruction or the fetch unit computes it. -/
abbrev VirtAddr := Word

/-- An address as the board sees it. -/
abbrev PhysAddr := Word

/-- The bits of an address that select a byte of a page. -/
def pageOffsetMask : Word := 0x00000fff#32

/-- The bits of an address that select a page. -/
def pageFrameMask : Word := 0xfffff000#32

/-- The address control passes to on a trap, and by default on a reset. -/
def trapVector : VirtAddr := 0xffffff00#32

namespace VirtAddr

/-- The byte within the page. -/
def pageOffset (a : VirtAddr) : Word := a &&& pageOffsetMask

/-- The virtual page number. -/
def pageNumber (a : VirtAddr) : Word := a >>> 12

/-- The index into the page directory. -/
def directoryIndex (a : VirtAddr) : Word := (a >>> 22) &&& 0x3ff#32

/-- The index into the page table. -/
def tableIndex (a : VirtAddr) : Word := (a >>> 12) &&& 0x3ff#32

/-- A virtual address in listings. -/
def text (a : VirtAddr) : String := "v" ++ Text.markedHexOf a

end VirtAddr

namespace PhysAddr

/-- The byte `offset` of the page at `frame`; bits outside either field are ignored. -/
def ofFrame (frame offset : Word) : PhysAddr :=
  (frame &&& pageFrameMask) ||| (offset &&& pageOffsetMask)

/-- A physical address in listings. -/
def text (a : PhysAddr) : String := "p" ++ Text.markedHexOf a

end PhysAddr

end I860
