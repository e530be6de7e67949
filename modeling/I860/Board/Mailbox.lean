import I860.Board.Message
/-!
# The mailbox

Where postings wait until the run loop collects them. It holds a set of messages and, for
each screen, the level last posted; collecting empties the set and leaves the levels.
-/

namespace I860

/-- The messages posted since the last collection and the levels posted last. -/
structure Pending where
  bits : BitVec 16
  displayBlank : Bool
  videoBlank : Bool
  deriving DecidableEq, Repr

namespace Pending

def isEmpty (p : Pending) : Bool := p.bits == 0#16

def contains (p : Pending) (m : Message) : Bool := p.bits &&& m.bit != 0#16

/-- The pending messages in handling order. -/
def messages (p : Pending) : List Message := Message.handlingOrder.filter p.contains

end Pending

/-- Postings on their way to the run loop. -/
structure Mailbox where
  pending : Pending
  deriving DecidableEq, Repr

namespace Mailbox

def empty : Mailbox := ⟨⟨0#16, false, false⟩⟩

def post (box : Mailbox) (m : Message) : Mailbox :=
  ⟨{ box.pending with bits := box.pending.bits ||| m.bit }⟩

/-- Posts the message that belongs to a screen together with its new level. -/
def postBlank (box : Mailbox) (source : BlankSource) (level : Bool) : Mailbox :=
  match source with
  | .display =>
      (Mailbox.mk { box.pending with displayBlank := level }).post .displayBlankChanged
  | .video =>
      (Mailbox.mk { box.pending with videoBlank := level }).post .videoBlankChanged

/-- Takes in one posting. -/
def accept (box : Mailbox) : Post → Mailbox
  | .message m => box.post m
  | .blank source level => box.postBlank source level

/-- What is pending, and the mailbox emptied of it. -/
def drain (box : Mailbox) : Pending × Mailbox :=
  (box.pending, ⟨{ box.pending with bits := 0#16 }⟩)

end Mailbox

end I860
