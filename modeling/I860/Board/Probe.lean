import I860.Board.Bus
/-!
# A probe on the bus

A probe sits between a processor and its board and records what passes: every byte that is
written, whether or not there is memory for it, and every change of blanking. Reading is not
recorded. The board behind it does not notice.
-/

namespace I860

/-- A board with a record of what was sent to it, newest first. -/
structure Probe (β : Type) where
  board : β
  writes : List (PhysAddr × Byte)
  blanks : List (BlankSource × Bool)

namespace Probe

variable {β : Type}

/-- A probe with an empty record. -/
def on (board : β) : Probe β := ⟨board, [], []⟩

/-- The probe with its record emptied. -/
def clear (p : Probe β) : Probe β := on p.board

instance [Bus β] : Bus (Probe β) where
  name p := Bus.name p.board
  readByte p addr := Bus.readByte p.board addr
  writeByte p addr b :=
    { p with board := Bus.writeByte p.board addr b, writes := (addr, b) :: p.writes }
  readBytes p addr count := Bus.readBytes p.board addr count
  blankChanged p source level :=
    { p with board := Bus.blankChanged p.board source level, blanks := (source, level) :: p.blanks }
  takePosts p :=
    let (posts, board) := Bus.takePosts p.board
    (posts, { p with board := board })

end Probe

end I860
