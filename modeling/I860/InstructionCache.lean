import I860.Board.Address
import I860.Sparse
/-!
# The instruction cache

It keeps pairs of instructions under their virtual addresses. An address selects a line by
the bits just above those within a pair, and the line answers only if it holds that very
pair. Nothing of the page tables is kept: whoever empties the cache too late sees old
instructions.
-/

namespace I860

/-- A pair of instructions and the address it was fetched from. -/
structure CacheLine where
  tag : VirtAddr
  pair : Double
  deriving DecidableEq, Repr

/-- The instruction cache with counts since the last report; the number of lines is a power
of two. -/
structure InstructionCache where
  lineBits : Nat
  lines : Sparse 32 CacheLine
  hits : Nat
  misses : Nat
  invalidations : Nat

namespace InstructionCache

/-- An empty cache with at least the given number of lines. -/
def new (lines : Nat) : InstructionCache := ⟨ceilLog2 lines, Sparse.empty, 0, 0, 0⟩

/-- The number of lines. -/
def size (c : InstructionCache) : Nat := 2 ^ c.lineBits

/-- The address of the pair that an address lies in. -/
def pairAddr (a : VirtAddr) : VirtAddr := a &&& 0xfffffff8#32

/-- The line that an address selects. -/
def lineOf (c : InstructionCache) (a : VirtAddr) : BitVec 32 :=
  BitVec.ofNat 32 ((a >>> 3).toNat % c.size)

/-- The pair kept for an address, without counting. -/
def peek (c : InstructionCache) (a : VirtAddr) : Option Double :=
  match c.lines.get? (c.lineOf a) with
  | some line => if line.tag = pairAddr a then some line.pair else none
  | none => none

/-- The pair kept for an address, counted as a hit or a miss. -/
def lookup (c : InstructionCache) (a : VirtAddr) : Option Double × InstructionCache :=
  match c.peek a with
  | some pair => (some pair, { c with hits := c.hits + 1 })
  | none => (none, { c with misses := c.misses + 1 })

/-- Keeps a pair, in place of what the line held. -/
def fill (c : InstructionCache) (a : VirtAddr) (pair : Double) : InstructionCache :=
  { c with lines := c.lines.insert (c.lineOf a) ⟨pairAddr a, pair⟩ }

/-- The cache with all lines dropped. -/
def invalidate (c : InstructionCache) : InstructionCache :=
  { c with lines := Sparse.empty, invalidations := c.invalidations + 1 }

/-- The cache with its counts started again. -/
def clearCounts (c : InstructionCache) : InstructionCache :=
  { c with hits := 0, misses := 0, invalidations := 0 }

end InstructionCache

end I860
