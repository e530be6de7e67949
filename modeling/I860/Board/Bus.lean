import I860.Board.Address
import I860.Board.ByteOrder
import I860.Board.Message
/-!
# The bus

A processor owns no memory: it is attached to a board, and reaches memory and devices only
through the operations of `Bus`. A board has to say how one byte is read and written; the
operations on several bytes follow, and a board with a faster path may give its own.

Reading has no effect on a board. A device may react to what is written to it by posting
control messages, which wait on the board until the run loop collects them.
-/

namespace I860

/-- `count` bytes from `addr` on, each read by itself; addresses wrap. -/
def loadEach (readByte : PhysAddr → Byte) (addr : PhysAddr) : (count : Nat) → List Byte
  | 0 => []
  | n + 1 => readByte addr :: loadEach readByte (addr + 1#32) n

/-- Stores bytes from `addr` on, each written by itself; addresses wrap. -/
def storeEach {β : Type} (writeByte : β → PhysAddr → Byte → β) (board : β) (addr : PhysAddr) :
    List Byte → β
  | [] => board
  | b :: rest => storeEach writeByte (writeByte board addr b) (addr + 1#32) rest

/-- A board that a processor can be attached to. -/
class Bus (β : Type) where
  /-- What the board is called in dumps. -/
  name : β → String
  readByte : β → PhysAddr → Byte
  writeByte : β → PhysAddr → Byte → β
  readBytes : β → PhysAddr → Nat → List Byte := fun board => loadEach (readByte board)
  writeBytes : β → PhysAddr → List Byte → β := storeEach writeByte
  /-- The blanking of a screen changed to the given level. -/
  blankChanged : β → BlankSource → Bool → β := fun board _ _ => board
  /-- The postings that devices made since they were last collected, oldest first. -/
  takePosts : β → List Post × β := fun board => ([], board)

namespace Bus

variable {β : Type} [Bus β]

/-- The operand of the given width at `addr`, extended with zeros. -/
def load (order : ByteOrder) (board : β) (addr : PhysAddr) (width : Width) : Quad :=
  order.join (readBytes board addr width.bytes)

/-- Stores the low bytes of `value` as an operand of the given width at `addr`. -/
def store (order : ByteOrder) (board : β) (addr : PhysAddr) (width : Width) (value : Quad) : β :=
  writeBytes board addr (order.split width value)

/-- The word at `addr`. -/
def loadWord (order : ByteOrder) (board : β) (addr : PhysAddr) : Word :=
  (load order board addr .word).setWidth 32

/-- Stores a word at `addr`. -/
def storeWord (order : ByteOrder) (board : β) (addr : PhysAddr) (value : Word) : β :=
  store order board addr .word (value.setWidth 128)

end Bus

end I860
