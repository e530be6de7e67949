import I860.Word
/-!
# Memory accesses

An access is a fetch, a read or a write, and moves one, two, four, eight or sixteen bytes.
-/

namespace I860

/-- What an access to memory is for. -/
inductive AccessKind where
  | fetch
  | read
  | write
  deriving DecidableEq, Repr

namespace AccessKind

/-- Whether this is a load or a store, and not an instruction fetch. -/
def isData : AccessKind → Bool
  | .fetch => false
  | _ => true

def isWrite : AccessKind → Bool
  | .write => true
  | _ => false

end AccessKind

/-- How many bytes one access moves. -/
inductive Width where
  | byte
  | half
  | word
  | double
  | quad
  deriving DecidableEq, Repr

namespace Width

def bytes : Width → Nat
  | .byte => 1
  | .half => 2
  | .word => 4
  | .double => 8
  | .quad => 16

/-- The width that moves `n` bytes. -/
def ofBytes? : Nat → Option Width
  | 1 => some .byte
  | 2 => some .half
  | 4 => some .word
  | 8 => some .double
  | 16 => some .quad
  | _ => none

/-- The bits of an address that a naturally aligned operand of this width leaves free. -/
def alignMask (w : Width) : Word := ~~~(BitVec.ofNat 32 (w.bytes - 1))

/-- The bits of a quad that an operand of this width fills. -/
def valueMask (w : Width) : Quad := BitVec.ofNat 128 (2 ^ (8 * w.bytes) - 1)

theorem ofBytes?_bytes (w : Width) : ofBytes? w.bytes = some w := by
  cases w <;> rfl

end Width

end I860
