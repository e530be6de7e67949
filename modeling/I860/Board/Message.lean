import I860.Word
/-!
# Control messages

The host steers a running processor by posting messages. A message says that something is
wanted, not how often: posting it twice before it is collected is the same as once.
-/

namespace I860

/-- A screen whose blanking the board reports. -/
inductive BlankSource where
  | display
  | video
  deriving DecidableEq, Repr

/-- What the host can ask of a run. -/
inductive Message where
  | reset
  | kill
  | halt
  | resume
  | interrupt
  | interruptClear
  | debugBreak
  | displayBlankChanged
  | videoBlankChanged
  deriving DecidableEq, Repr

namespace Message

/-- All messages in the order in which a run handles those it has collected. -/
def handlingOrder : List Message :=
  [.reset, .interrupt, .interruptClear, .displayBlankChanged, .videoBlankChanged,
    .debugBreak, .halt, .resume, .kill]

/-- The position of a message in the set of pending ones. -/
def index : Message → Nat
  | .reset => 0
  | .kill => 1
  | .halt => 2
  | .resume => 3
  | .interrupt => 4
  | .interruptClear => 5
  | .debugBreak => 6
  | .displayBlankChanged => 7
  | .videoBlankChanged => 8

/-- The set that holds just this message. -/
def bit (m : Message) : BitVec 16 := 1#16 <<< m.index

end Message

/-- One posting: a bare message, or a new blanking level for a screen. -/
inductive Post where
  | message (m : Message)
  | blank (source : BlankSource) (level : Bool)
  deriving DecidableEq, Repr

end I860
