/-!
# Dual-instruction mode

In dual mode the processor issues a core instruction and a floating-point instruction
together. It enters and leaves the mode with a delay of one pair: a pair whose low half asks
for dual mode moves `none` to `temp` and `temp` to `full`, a pair that does not moves the
other way. Pairs issue together as soon as the state is not `none`.
-/

namespace I860

/-- How far the processor is in dual-instruction mode. -/
inductive DualMode where
  | none
  | temp
  | full
  deriving DecidableEq, Repr

namespace DualMode

/-- The state after a pair whose low half did, or did not, ask for dual mode. -/
def next : DualMode → (capable : Bool) → DualMode
  | .none, false | .temp, false => .none
  | .none, true | .full, false => .temp
  | .temp, true | .full, true => .full

/-- Whether pairs issue together. -/
def isDual : DualMode → Bool
  | .none => false
  | _ => true

/-- The name of the state in dumps. -/
def name : DualMode → String
  | .none => "None"
  | .temp => "Temp"
  | .full => "Full"

end DualMode

/-- What a trap saves of dual-instruction mode, for the return from its handler. -/
structure DualSnapshot where
  mode : DualMode
  /-- The condition code that a compare left for the next branch. -/
  compareCode : Bool
  /-- Whether that condition code is waiting. -/
  comparePending : Bool
  /-- Whether the low half of the trapping pair had asked for dual mode. -/
  capable : Bool
  deriving DecidableEq, Repr

namespace DualSnapshot

/-- The snapshot before any trap. -/
def initial : DualSnapshot := ⟨.none, false, false, false⟩

end DualSnapshot

end I860
