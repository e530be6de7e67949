import I860.Cpu.Step
import I860.Proofs.Effects

/-!
# Delayed branches and their slots

The seven delayed branches differ in where they go and in what they write,
and agree in how they treat their slot. A `SlotPlan` is what one of them has
decided when it issues: the register that the slot already finds written, and
what is left to do behind the slot. `execute_branch` says that a delayed
branch is its plan around its slot. The two conditional ones have no plan
when they are not taken, and then skip their slot.
-/

namespace I860

variable {β : Type}

/-- What a delayed branch has decided when it issues. -/
structure SlotPlan where
  /-- The register that is written before the slot runs, and its value. -/
  written : Option (RegNum × Word)
  /-- Where the branch goes; if nowhere, it goes on behind its slot. -/
  target : Option Word
  /-- It leaves the trap handler. -/
  returns : Bool
  /-- The loop condition it leaves behind, if it has one. -/
  loop : Option Bool

namespace SlotPlan

/-- The plan of a branch that only goes somewhere. -/
def toward (target : Word) : SlotPlan := ⟨none, some target, false, none⟩

/-- The state in which the slot runs. -/
def enter (p : SlotPlan) (c : Cpu β) : Cpu β :=
  match p.written with
  | none => c
  | some (r, v) => c.writeInt r v

/-- A slot that was run from `enter` has stopped with a fault in `d`. -/
def undo (p : SlotPlan) (c d : Cpu β) : Cpu β :=
  match p.written with
  | none => d
  | some (r, _) => d.writeInt r (c.readInt r)

/-- A slot has ended in `d`. -/
def leave (p : SlotPlan) (d : Cpu β) : Cpu β :=
  let gone := (if p.returns then d.returnFromTrap else d).jump (p.target.getD d.afterSlot)
  match p.loop with
  | none => gone
  | some lcc => gone.setPsr { gone.control.psr with lcc := lcc }

end SlotPlan

/-- The plan of a delayed branch; none if it is not taken and has none. -/
def slotPlan? (i : Instruction) (c : Cpu β) : Option SlotPlan :=
  let near := Execute.branchTarget c.pc i.branchOffset
  let calling (target : Word) : SlotPlan :=
    { SlotPlan.toward target with written := some (Execute.linkReg, c.afterSlot) }
  match i.op with
  | .br => some (.toward near)
  | .call => some (calling near)
  | .calli => some (calling (c.readInt i.src1))
  | .bri =>
      some { SlotPlan.toward (c.readInt i.src1) with returns := c.control.psr.anyTrap }
  | .bcT => if c.branchCode == true then some (.toward near) else none
  | .bncT => if c.branchCode == false then some (.toward near) else none
  | .bla =>
      let step := c.readInt i.src1
      let counter := c.readInt i.src2
      some
        { written := some (i.src2, step + counter)
          target :=
            if c.control.psr.lcc then some (Execute.branchTarget c.pc i.splitOffset)
            else none
          returns := false
          loop := some (Execute.loopCondition step counter) }
  | _ => none

section Branch

variable (i : Instruction) (c : Cpu β)

/-- How a branch with a plan runs its slot. -/
def SlotPlan.run (p : SlotPlan) (slot : Exec β Unit) : Exec β Unit := fun c =>
  match slot (p.enter c) with
  | .ok _ d => .ok () (p.leave d)
  | .error e d => .error e (p.undo c d)

theorem linkAndBranch_eq (slot : Exec β Unit) (target : Word) :
    Execute.linkAndBranch slot target c =
      SlotPlan.run
        { SlotPlan.toward target with written := some (Execute.linkReg, c.afterSlot) }
        slot c := by
  unfold Execute.linkAndBranch SlotPlan.run
  rw [Exec.bind_apply, Exec.get_apply]
  dsimp only
  rw [Exec.bind_apply, Exec.set_apply]
  dsimp only
  rw [Exec.bind_apply, undoOnFault]
  dsimp only [SlotPlan.enter, SlotPlan.undo]
  cases slot (c.writeInt Execute.linkReg c.afterSlot) <;> rfl

theorem bcT_eq (wanted : Bool) (slot : Exec β Unit) :
    Execute.bcT wanted slot i c =
      if c.branchCode == wanted then
        SlotPlan.run (.toward (Execute.branchTarget c.pc i.branchOffset)) slot c
      else .ok () (c.jump c.afterSlot) := by
  unfold Execute.bcT SlotPlan.run
  rw [Exec.bind_apply, Exec.get_apply]
  dsimp only
  rw [Exec.ite_apply]
  split
  · rw [Exec.bind_apply]
    dsimp only [SlotPlan.enter, SlotPlan.undo, SlotPlan.toward]
    cases slot c <;> rfl
  · rfl

/-- A delayed branch is its plan around its slot. -/
theorem execute_branch [Bus β] (slot : Exec β Unit) (h : i.op.isDelayedBranch = true) :
    execute slot i c =
      match slotPlan? i c with
      | none => .ok () (c.jump c.afterSlot)
      | some p => p.run slot c := by
  unfold execute slotPlan?
  cases hop : i.op <;> simp only [hop, Op.isDelayedBranch, Bool.false_eq_true] at h
  case call => exact linkAndBranch_eq ..
  case calli => exact linkAndBranch_eq ..
  case bcT | bncT =>
    dsimp only
    rw [bcT_eq]
    split <;> rfl
  case br =>
    dsimp only [Execute.br]
    rw [Exec.bind_apply, Exec.get_apply]
    dsimp only [SlotPlan.run, SlotPlan.enter, SlotPlan.undo, SlotPlan.toward]
    rw [Exec.bind_apply]
    cases slot c <;> rfl
  case bri =>
    dsimp only [Execute.bri]
    rw [Exec.bind_apply, Exec.get_apply]
    dsimp only [SlotPlan.run, SlotPlan.enter, SlotPlan.undo, SlotPlan.toward]
    rw [Exec.bind_apply]
    cases slot c <;> rfl
  case bla =>
    dsimp only [Execute.bla]
    rw [Exec.bind_apply, Exec.get_apply]
    dsimp only [SlotPlan.run, SlotPlan.enter, SlotPlan.undo, SlotPlan.toward]
    rw [Exec.bind_apply, Exec.set_apply]
    dsimp only
    rw [Exec.bind_apply, undoOnFault]
    cases c.control.psr.lcc <;>
      cases slot (c.writeInt i.src2 (c.readInt i.src1 + c.readInt i.src2)) <;> rfl

/-- Only delayed branches have plans. -/
theorem slotPlan?_eq_none (h : i.op.isDelayedBranch = false) : slotPlan? i c = none := by
  unfold slotPlan?
  cases hop : i.op <;> simp only [hop, Op.isDelayedBranch, Bool.true_eq_false] at h ⊢

end Branch

end I860
