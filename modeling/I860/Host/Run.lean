import I860.Board.Mailbox
import I860.Cpu.Reset
import I860.Cpu.Step
/-!
# Runs

A run steps a processor and follows the messages it is sent. It goes in turns: first all
pending messages are handled, in their fixed order, and then a batch of steps is run. A
message is therefore never handled in the middle of a batch, and none is handled twice.

A turn ends the run if it was killed or has made the steps it was asked for. A turn of a
halted run makes no step: the run waits for a message, and whoever drives it decides how
long to wait before it takes the next turn.
-/

namespace I860

/-- A processor on its way through a run. -/
structure Run (β : Type) where
  cpu : Cpu β
  mailbox : Mailbox
  /-- Steps between two collections of messages. -/
  batchSize : Nat
  /-- Steps until the run ends by itself, if it does. -/
  remaining : Option Nat
  halted : Bool
  batchSize_pos : 0 < batchSize

/-- What a turn leaves a run with. -/
inductive Progress where
  | goesOn
  | waits
  | ended
  deriving DecidableEq, Repr

namespace Run

variable {β : Type}

/-- A run without a limit that has not begun. -/
def new (cpu : Cpu β) (config : RunConfig) : Run β where
  cpu := cpu
  mailbox := .empty
  batchSize := max config.batchSize 1
  remaining := none
  halted := false
  batchSize_pos := by omega

/-- The run with another posting in its mailbox. -/
def accept (r : Run β) (p : Post) : Run β := { r with mailbox := r.mailbox.accept p }

/-- Steps the processor once for each step of the next batch, which the limit may shorten. -/
def work (r : Run β) [Bus β] : Progress × Run β :=
  match r.remaining with
  | none => (.goesOn, { r with cpu := r.cpu.steps r.batchSize })
  | some 0 => (.ended, r)
  | some n =>
      let batch := min n r.batchSize
      (.goesOn, { r with cpu := r.cpu.steps batch, remaining := some (n - batch) })

variable [Bus β]

/-- The run with the postings of the devices on its board in its mailbox. -/
def collect (r : Run β) : Run β :=
  let (posts, board) := Bus.takePosts r.cpu.board
  posts.foldl accept { r with cpu := { r.cpu with board := board } }

/-- Follows one message. `levels` tells how screens are blanked. To be killed changes nothing
but what the turn comes to. -/
def handle (levels : Pending) (r : Run β) (m : Message) : Run β :=
  let tellBoard (source : BlankSource) (level : Bool) : Run β :=
    { r with cpu := { r.cpu with board := Bus.blankChanged r.cpu.board source level } }
  match m with
  | .reset => { r with cpu := r.cpu.reset }
  | .interrupt => { r with cpu := r.cpu.setIrqLine true }
  | .interruptClear => { r with cpu := r.cpu.setIrqLine false }
  | .displayBlankChanged => tellBoard .display levels.displayBlank
  | .videoBlankChanged => tellBoard .video levels.videoBlank
  | .debugBreak => { r with halted := true }
  | .halt => { r with halted := true }
  | .resume => { r with halted := false }
  | .kill => r

/-- Takes what is pending out of the mailbox. -/
def drain (r : Run β) : Pending × Run β :=
  let r := r.collect
  let (pending, mailbox) := r.mailbox.drain
  (pending, { r with mailbox := mailbox })

/-- One turn. -/
def turn (r : Run β) : Progress × Run β :=
  let (pending, r) := r.drain
  let r := pending.messages.foldl (handle pending) r
  if pending.contains .kill then (.ended, r)
  else if r.halted then (.waits, r)
  else r.work

/-- Turns until the run waits or ends, but not more than the given number. -/
def turns : (count : Nat) → Run β → Progress × Run β
  | 0, r => (.goesOn, r)
  | n + 1, r =>
      match r.turn with
      | (.goesOn, r) => turns n r
      | stopped => stopped

/-- A run of the given number of steps, as far as it gets without another message. Every
turn that goes on makes a step, so there are enough turns. -/
def finish (r : Run β) (steps : Nat) : Progress × Run β :=
  { r with remaining := some steps }.turns (steps + 1)

end Run

end I860
