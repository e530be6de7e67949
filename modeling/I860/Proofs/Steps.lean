import I860.Board.OpenMemory
import I860.Cpu.Reset
import I860.Proofs.Moves

/-!
# How a step ends

A step runs its pair and then closes in one of four ways (`Cpu.step_end`): it
moves dual mode on, it accepts an interrupt, it enters the handler of a trap
that the run has raised, or it has found slots nested without end and does
nothing. What can be said about the run (`executePair_moves`) becomes a
statement about steps by these four cases, most often by the two of them that
do not enter a handler (`Cpu.step_of_stays`).

Between two steps the interrupt pin may be driven and others may write to the
board. None of this touches the modes the processor is in.
-/

namespace I860

variable {β : Type}

namespace Cpu

@[simp] theorem control_advanceDual (c : Cpu β) : c.advanceDual.control = c.control := by
  unfold advanceDual
  split <;> rfl

@[simp] theorem saved_advanceDual (c : Cpu β) : c.advanceDual.saved = c.saved := by
  unfold advanceDual
  split <;> rfl

@[simp] theorem resumeCapable_advanceDual (c : Cpu β) :
    c.advanceDual.resumeCapable = c.resumeCapable := by
  unfold advanceDual
  split <;> rfl

@[simp] theorem flags_advanceDual (c : Cpu β) : c.advanceDual.flags = c.flags := by
  unfold advanceDual
  split <;> rfl

@[simp] theorem irqLine_advanceDual (c : Cpu β) : c.advanceDual.irqLine = c.irqLine := by
  unfold advanceDual
  split <;> rfl

@[simp] theorem listing_advanceDual (c : Cpu β) : c.advanceDual.listing = c.listing := by
  unfold advanceDual
  split <;> rfl

variable [Bus β]

/-- Whether a step ends in the trap handler. -/
def entersTrap (c : Cpu β) : Bool :=
  match executePair maxNesting c.beginStep with
  | .ok _ d => d.advanceDual.acceptsInterrupt
  | .error (.trap _) _ => true
  | .error .endlessSlot _ => false

/-- Whether a step completes its pair and no interrupt is accepted behind it. -/
def completes (c : Cpu β) : Bool :=
  match executePair maxNesting c.beginStep with
  | .ok _ d => !d.advanceDual.acceptsInterrupt
  | .error _ _ => false

/-- Whether a step leaves a trap handler. It may enter one again. -/
def leavesTrap (c : Cpu β) : Bool :=
  match executePair maxNesting c.beginStep with
  | .ok _ d => d.flags.dualRestored
  | .error (.trap _) d => d.flags.dualRestored
  | .error .endlessSlot _ => false

/-- How a step ends, from how its run has ended. -/
inductive StepEnd (c : Cpu β) : Cpu β → Prop
  | completed {d : Cpu β} (ran : executePair maxNesting c.beginStep = .ok () d)
      (quiet : d.advanceDual.acceptsInterrupt = false) :
      StepEnd c d.advanceDual.countStep
  | interrupted {d : Cpu β} (ran : executePair maxNesting c.beginStep = .ok () d)
      (accepts : d.advanceDual.acceptsInterrupt = true) :
      StepEnd c
        ((d.advanceDual.setPsr { d.advanceDual.control.psr with inr := true }).enterTrap
          Trap.ofPin).countStep
  | faulted {d : Cpu β} {t : Trap}
      (ran : executePair maxNesting c.beginStep = .error (.trap t) d) :
      StepEnd c (d.enterTrap t).countStep
  | endless {d : Cpu β} (ran : executePair maxNesting c.beginStep = .error .endlessSlot d) :
      StepEnd c c

theorem step_end (c : Cpu β) : StepEnd c c.step := by
  unfold step
  cases hran : executePair maxNesting c.beginStep with
  | ok _ d =>
      cases hacc : d.advanceDual.acceptsInterrupt with
      | true =>
          dsimp only
          rw [takeInterrupt, if_pos hacc]
          exact .interrupted hran hacc
      | false =>
          dsimp only
          rw [takeInterrupt, if_neg (by rw [hacc]; exact Bool.false_ne_true)]
          exact .completed hran hacc
  | error e d =>
      cases e with
      | trap t => exact .faulted hran
      | endlessSlot => exact .endless hran

/-- A step that does not end in the trap handler completes its pair, or it has
found slots nested without end and does nothing. -/
theorem step_of_stays {c : Cpu β} (hstays : c.entersTrap = false) :
    (∃ d, executePair maxNesting c.beginStep = .ok () d ∧
        c.step = d.advanceDual.countStep) ∨
      (∃ d, executePair maxNesting c.beginStep = .error .endlessSlot d) ∧ c.step = c := by
  have hend := c.step_end
  generalize c.step = s at hend
  cases hend with
  | @completed d hran hquiet => exact .inl ⟨d, hran, rfl⟩
  | interrupted hran haccepts => simp [entersTrap, hran, haccepts] at hstays
  | faulted hran => simp [entersTrap, hran] at hstays
  | @endless d hran => exact .inr ⟨⟨d, hran⟩, rfl⟩

theorem step_of_completes {c : Cpu β} (h : c.completes = true) :
    ∃ d, executePair maxNesting c.beginStep = .ok () d ∧
      c.step = d.advanceDual.countStep := by
  unfold completes at h
  split at h
  · next d hran =>
      refine ⟨d, hran, ?_⟩
      simp only [Bool.not_eq_true'] at h
      simp only [step, hran, takeInterrupt, h, Bool.false_eq_true, if_false]
  · cases h

end Cpu

/-! ## Between steps -/

/-- What happens to the processor between two of its steps: its interrupt pin
is driven, and others write to the board. -/
inductive Outside (c : Cpu β) : Cpu β → Prop
  | pin (level : Bool) : Outside c (c.setIrqLine level)
  | board (board : β) : Outside c { c with board := board }

abbrev Between : Cpu β → Cpu β → Prop := Relation.ReflTransGen Outside

theorem Between.sameMode {c d : Cpu β} (h : Between c d) : SameMode c d := by
  induction h with
  | refl => exact .refl c
  | tail _ houtside ih =>
      cases houtside with
      | pin level => exact ih.trans ⟨rfl, rfl, rfl, rfl, rfl⟩
      | board board => exact ih.trans ⟨rfl, rfl, rfl, rfl, rfl⟩

theorem Between.pc_eq {c d : Cpu β} (h : Between c d) :
    d.pc = c.pc ∧ d.compareCode = c.compareCode ∧ d.comparePending = c.comparePending := by
  induction h with
  | refl => exact ⟨rfl, rfl, rfl⟩
  | tail _ houtside ih =>
      cases houtside with
      | pin level => exact ih
      | board board => exact ih

/-! ## Programs

A processor before a few words of code in otherwise blank memory, for the
cases that show that something can happen. -/

/-- Blank memory with blocks of code written to it. -/
def OpenMemory.ofBlocks (blocks : List (PhysAddr × List Word)) : OpenMemory :=
  blocks.foldl (fun board (addr, words) =>
    Bus.writeBytes board addr (words.flatMap fun w => bytesLowFirst 4 (w.setWidth 128)))
    .blank

/-- A processor that was reset and starts at `pc`. -/
def Cpu.before (pc : Word) (blocks : List (PhysAddr × List Word)) : Cpu OpenMemory :=
  let config := Config.default
  (Cpu.powerUp (OpenMemory.ofBlocks blocks)
    { config with general := { config.general with startPc := pc } }).reset

end I860
