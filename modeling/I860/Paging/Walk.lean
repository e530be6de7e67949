import I860.Board.Bus
import I860.Paging.Entry
/-!
# Walking the page tables

An address is translated through a directory entry and a table entry, each read from memory.
`resolve` finds the two entries and decides whether the access is granted, without touching
memory. `walk` then records the access in both entries; this is all that a walk ever writes,
and it writes nothing if the access is refused.

A permitted write to a page that is not dirty is the one case that records the access and
still faults: software has to set the dirty bit itself.
-/

namespace I860

/-- What a walk finds out about a page. -/
structure PageMapping where
  /-- The address of the page. -/
  frame : Word
  /-- Writable at both levels. -/
  writable : Bool
  /-- Open to user mode at both levels. -/
  user : Bool
  dirty : Bool
  deriving DecidableEq, Repr

namespace PageMapping

/-- Whether the mapping grants an access. -/
def grants (t : PageMapping) (access : AccessKind) (who : Privilege) : Bool :=
  permits t.writable t.user access who

/-- The physical address of a byte of the page. -/
def address (t : PageMapping) (vaddr : VirtAddr) : PhysAddr :=
  PhysAddr.ofFrame t.frame vaddr.pageOffset

end PageMapping

/-- The two entries that translate an address, and where they lie. -/
structure PagePath where
  directoryAddr : PhysAddr
  directory : PageEntry
  tableAddr : PhysAddr
  table : PageEntry
  deriving DecidableEq, Repr

namespace PagePath

variable {β : Type} [Bus β]

/-- Reads the entries for an address and checks the access at each level. -/
def resolve (order : ByteOrder) (board : β) (dtb : Word) (vaddr : VirtAddr)
    (access : AccessKind) (who : Privilege) : Option PagePath :=
  let directoryAddr := dtb ||| (vaddr.directoryIndex <<< 2)
  let directory : PageEntry := ⟨Bus.loadWord order board directoryAddr⟩
  if directory.present && permits directory.writable directory.user access who then
    let tableAddr := directory.frame ||| (vaddr.tableIndex <<< 2)
    let table : PageEntry := ⟨Bus.loadWord order board tableAddr⟩
    if table.present && permits table.writable table.user access who then
      some ⟨directoryAddr, directory, tableAddr, table⟩
    else none
  else none

/-- The board with the access recorded in both entries. -/
def record (order : ByteOrder) (board : β) (p : PagePath) : β :=
  let board := Bus.storeWord order board p.directoryAddr p.directory.markAccessed.raw
  Bus.storeWord order board p.tableAddr p.table.markAccessed.raw

/-- What the two entries say together. -/
def mapping (p : PagePath) : PageMapping where
  frame := p.table.frame
  writable := p.directory.writable && p.table.writable
  user := p.directory.user && p.table.user
  dirty := p.table.dirty

end PagePath

/-- Translates an address through the tables whose directory is at `dtb`, and records the
access there. -/
def walk {β : Type} [Bus β] (order : ByteOrder) (board : β) (dtb : Word) (vaddr : VirtAddr)
    (access : AccessKind) (who : Privilege) : Except TrapKind PageMapping × β :=
  match PagePath.resolve order board dtb vaddr access who with
  | none => (.error access.fault, board)
  | some path =>
      let board := path.record order board
      if access.isWrite && !path.table.dirty then (.error .dataAccess, board)
      else (.ok path.mapping, board)

end I860
