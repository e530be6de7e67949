import I860.Board.Bus
/-!
# A doorbell

A device with which the program on a board steers its own run: each byte stored at the
address of the bell posts a message. The byte is a position in the handling order, or a code
for a blanking level; others post nothing. The memory under the bell is written as well.
-/

namespace I860

/-- A board with a doorbell at an address, if at all, and the postings that wait there,
newest first. -/
structure Doorbell (β : Type) where
  board : β
  bell : Option PhysAddr
  posts : List Post

namespace Doorbell

/-- What a byte posts: the message at that position, or from 16 to 19 a blanking level, with
the screen in bit 0 and the level in bit 1. -/
def postOf? (b : Byte) : Option Post :=
  match Message.handlingOrder[b.toNat]? with
  | some m => some (.message m)
  | none =>
      if b &&& 0xfc#8 = 0x10#8 then
        some (.blank (if b.getLsbD 0 then .video else .display) (b.getLsbD 1))
      else none

instance {β : Type} [Bus β] : Bus (Doorbell β) where
  name p := Bus.name p.board
  readByte p addr := Bus.readByte p.board addr
  writeByte p addr b :=
    { p with
      board := Bus.writeByte p.board addr b
      posts := if p.bell = some addr then (postOf? b).toList ++ p.posts else p.posts }
  readBytes p addr count := Bus.readBytes p.board addr count
  blankChanged p source level := { p with board := Bus.blankChanged p.board source level }
  takePosts p := (p.posts.reverse, { p with posts := [] })

end Doorbell

end I860
