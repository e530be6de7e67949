import I860.Control.Dirbase
import I860.Paging.Tlb
/-!
# The memory management unit

Every access is translated here: to the same address while paging is off, from the lookaside
buffer where that has the page, and through the page tables otherwise. A kept mapping does not
answer a write to a page that was clean when it was kept, so that the tables are asked whether
it still is.
-/

namespace I860

/-- The lookaside buffer with counts since the last report. -/
structure Mmu where
  tlb : Tlb
  hits : Nat
  misses : Nat
  flushes : Nat

namespace Mmu

/-- A unit whose buffer is empty. -/
def new (tlbSets : Nat) : Mmu := ⟨Tlb.new tlbSets, 0, 0, 0⟩

/-- The page is translated through the tables, and a success is kept. -/
def translateByWalk {β : Type} [Bus β] (m : Mmu) (order : ByteOrder) (board : β) (dtb : Word)
    (vaddr : VirtAddr) (access : AccessKind) (who : Privilege) :
    Except TrapKind PhysAddr × Mmu × β :=
  let m := { m with misses := m.misses + 1 }
  match walk order board dtb vaddr access who with
  | (.error kind, board) => (.error kind, m, board)
  | (.ok t, board) =>
      (.ok (t.address vaddr), { m with tlb := m.tlb.insert vaddr.pageNumber access.isWrite t }, board)

/-- The physical address of `vaddr`, or the trap that the access raises. -/
def translate {β : Type} [Bus β] (m : Mmu) (order : ByteOrder) (board : β) (dirbase : Dirbase)
    (vaddr : VirtAddr) (access : AccessKind) (who : Privilege) :
    Except TrapKind PhysAddr × Mmu × β :=
  if !dirbase.ate then (.ok vaddr, m, board)
  else
    match m.tlb.lookup vaddr.pageNumber with
    | none => m.translateByWalk order board dirbase.dtb vaddr access who
    | some t =>
        if !t.grants access who then (.error access.fault, m, board)
        else if access.isWrite && !t.dirty then
          m.translateByWalk order board dirbase.dtb vaddr access who
        else (.ok (t.address vaddr), { m with hits := m.hits + 1 }, board)

/-- The unit with all kept mappings dropped. -/
def flush (m : Mmu) : Mmu := { m with tlb := m.tlb.flush, flushes := m.flushes + 1 }

/-- The unit with its counts started again. -/
def clearCounts (m : Mmu) : Mmu := { m with hits := 0, misses := 0, flushes := 0 }

end Mmu

end I860
