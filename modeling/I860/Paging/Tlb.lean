import I860.Paging.Walk
import I860.Sparse
/-!
# The lookaside buffer

It keeps the mappings of pages so that they need not be looked up again. A page number selects
a set, and a set has two slots: one for mappings that a fetch or read asked for, one for those
of a write, so that a page that is both read and written does not push itself out. A page is
in at most one of its two slots, which is why it does not matter which of them is asked first.
-/

namespace I860

/-- A kept mapping and the page it is for. -/
structure TlbEntry where
  page : Word
  mapping : PageMapping
  deriving DecidableEq, Repr

/-- The lookaside buffer; the number of sets is a power of two. -/
structure Tlb where
  setBits : Nat
  readSlots : Sparse 32 TlbEntry
  writeSlots : Sparse 32 TlbEntry

namespace Tlb

/-- An empty buffer with at least the given number of sets. -/
def new (sets : Nat) : Tlb := ⟨ceilLog2 sets, Sparse.empty, Sparse.empty⟩

def sets (b : Tlb) : Nat := 2 ^ b.setBits

/-- The set of a page. -/
def setOf (b : Tlb) (page : Word) : BitVec 32 := BitVec.ofNat 32 (page.toNat % b.sets)

/-- The mapping of a page in the slot of one kind. -/
def inSlot (slots : Sparse 32 TlbEntry) (set : BitVec 32) (page : Word) : Option PageMapping :=
  match slots.get? set with
  | some e => if e.page = page then some e.mapping else none
  | none => none

/-- The mapping kept for a page. -/
def lookup (b : Tlb) (page : Word) : Option PageMapping :=
  (inSlot b.readSlots (b.setOf page) page).or (inSlot b.writeSlots (b.setOf page) page)

/-- The slots without the mapping of a page. -/
def dropPage (slots : Sparse 32 TlbEntry) (set : BitVec 32) (page : Word) : Sparse 32 TlbEntry :=
  if (inSlot slots set page).isSome then slots.erase set else slots

/-- Keeps a mapping, in the slot for the access that asked for it. A copy in the other
slot would be out of date and is dropped. -/
def insert (b : Tlb) (page : Word) (forWrite : Bool) (t : PageMapping) : Tlb :=
  let set := b.setOf page
  if forWrite then
    { b with
      readSlots := dropPage b.readSlots set page
      writeSlots := b.writeSlots.insert set ⟨page, t⟩ }
  else
    { b with
      readSlots := b.readSlots.insert set ⟨page, t⟩
      writeSlots := dropPage b.writeSlots set page }

/-- The buffer with all mappings dropped. -/
def flush (b : Tlb) : Tlb := { b with readSlots := Sparse.empty, writeSlots := Sparse.empty }

end Tlb

end I860
