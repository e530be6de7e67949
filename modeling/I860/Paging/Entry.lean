import I860.Board.Access
import I860.Trap
/-!
# Page-table entries and permissions

An entry of either level is a word: a frame address and flags. Whether an access is granted
is decided by one rule, `permits`, for the entries of both levels and for mappings that were
kept from earlier.

    0 P present   1 W writable   2 U user   5 A accessed   6 D dirty   12-31 frame
-/

namespace I860

/-- An entry of the page directory or of a page table. -/
structure PageEntry where
  raw : Word
  deriving DecidableEq, Repr

namespace PageEntry

def present (e : PageEntry) : Bool := e.raw.getLsbD 0

def writable (e : PageEntry) : Bool := e.raw.getLsbD 1

/-- Whether the page is open to user mode. -/
def user (e : PageEntry) : Bool := e.raw.getLsbD 2

def dirty (e : PageEntry) : Bool := e.raw.getLsbD 6

/-- The address of the page, or of the table that a directory entry points to. -/
def frame (e : PageEntry) : Word := e.raw &&& 0xfffff000#32

/-- The bit that records an access. -/
def accessedBit : Word := 0x20#32

/-- The entry with its access recorded. -/
def markAccessed (e : PageEntry) : PageEntry := ⟨e.raw ||| accessedBit⟩

end PageEntry

/-- On whose behalf an access is made. -/
structure Privilege where
  /-- From user mode. -/
  user : Bool
  /-- Write protection also binds the supervisor. -/
  writeProtect : Bool
  deriving DecidableEq, Repr

/-- The trap that a refused access raises. -/
def AccessKind.fault : AccessKind → TrapKind
  | .fetch => .instructionAccess
  | _ => .dataAccess

/-- Whether permissions grant an access. -/
def permits (writable userOpen : Bool) (access : AccessKind) (who : Privilege) : Bool :=
  !(access.isWrite && (who.user || who.writeProtect) && !writable) && !(who.user && !userOpen)

end I860
