import I860.Cpu.State
/-!
# Entering and leaving a trap handler

A trap hands control to a fixed address in supervisor mode, with interrupts off and outside
of dual-instruction mode. What it overwrites it saves: the privilege and the interrupt enable
in the status register, the progress of dual-instruction mode in a snapshot, and the place of
the fault in the fault instruction register. An indirect branch made while a trap is on record
takes it all back.
-/

namespace I860.Cpu

variable {β : Type}

/-- Enters the trap handler. The status bit of the trap is already set. For a fault in a delay
slot the place is that of the slot behind the outermost branch, which is where the program
counter is by now. -/
def enterTrap (c : Cpu β) (t : Trap) : Cpu β :=
  let psr := c.control.psr
  { c with
    saved := ⟨c.dual, c.compareCode, c.comparePending, c.flags.dualCapable⟩
    dual := .none
    compareCode := false
    comparePending := false
    faultAddrHeld := true
    control :=
      { c.control with
        fir := if t.inDelaySlot then c.pc + 4#32 else c.pc
        psr :=
          { psr with
            pu := psr.u
            pim := psr.im
            u := false
            im := false
            dim := false
            ds := false } }
    stats :=
      { c.stats with
        traps := c.stats.traps + 1
        interrupts := if t.external then c.stats.interrupts + 1 else c.stats.interrupts }
    pc := trapVector }

/-- Leaves the trap handler. -/
def returnFromTrap (c : Cpu β) : Cpu β :=
  let psr := c.control.psr
  { c with
    control := { c.control with psr := { psr with u := psr.pu, im := psr.pim }.clearTraps }
    dual := c.saved.mode
    compareCode := c.saved.compareCode
    comparePending := c.saved.comparePending
    resumeCapable := c.saved.capable
    flags := { c.flags with dualRestored := true } }

end I860.Cpu
