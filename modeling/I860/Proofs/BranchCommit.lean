import I860.Proofs.CachedFetch
import I860.Proofs.Course
import I860.Proofs.FaultPlace

/-!
# Delayed branches do what they decided

A delayed branch decides before its slot runs and acts after it. In between
anything may happen: the slot may write the registers that the branch has read
or written, change the conditions, and branch itself, with slots of its own.
`Instruction.taken` and `Instruction.goal` read the decision off the state in
which the branch issues, and `delayed_branch_commits` says that it stands.

The program counter is what the nested branches have in common, and each of
them leaves it wherever it went. No branch depends on where the slot has left
it: it comes back to its own address first (`Cpu.backAt`), and computes the
address behind its slot from there. The size of the slot is the one thing that
is read again afterwards. It is fixed when the step begins, and no run changes
it (`slotBody_pairing`), by the induction that is behind `executeOne_moves`.
-/

namespace I860

/-! ## What is decided -/

namespace Instruction

variable {β : Type}

/-- Whether a delayed branch is taken that issues in `c`. -/
def taken (i : Instruction) (c : Cpu β) : Bool :=
  match i.op with
  | .bcT => c.branchCode
  | .bncT => !c.branchCode
  | .bla => c.control.psr.lcc
  | _ => true

/-- Where it goes then. -/
def goal (i : Instruction) (c : Cpu β) : Word :=
  match i.op with
  | .bri | .calli => c.readInt i.src1
  | .bla => c.pc + 4#32 + (i.splitOffset <<< 2)
  | _ => c.pc + 4#32 + (i.branchOffset <<< 2)

/-- Whether it runs no slot at all. -/
def skipsSlot (i : Instruction) (c : Cpu β) : Bool :=
  match i.op with
  | .bcT | .bncT => !i.taken c
  | _ => false

end Instruction

section Registers

variable {β : Type}

theorem Cpu.readInt_writeInt (c : Cpu β) {i j : RegNum} (hi : i ≠ 0) (v : Word) :
    (c.writeInt i v).readInt j = if i = j then v else c.readInt j := by
  unfold writeInt readInt IntRegs.write IntRegs.read
  rw [if_neg hi]
  by_cases hij : i = j
  · subst hij
    rw [if_neg hi, if_pos rfl]
    exact Vector.getElem_set_self _
  · rw [if_neg hij]
    have hne : i.val ≠ j.val := fun h => hij (Fin.ext h)
    split
    · rfl
    · exact Vector.getElem_set_ne i.isLt j.isLt hne

theorem Cpu.readInt_writeInt_of_ne (c : Cpu β) {i j : RegNum} (hij : j ≠ i) (v : Word) :
    (c.writeInt i v).readInt j = c.readInt j := by
  by_cases hi : i = 0
  · subst hi
    rfl
  · rw [c.readInt_writeInt hi, if_neg (fun h => hij h.symm)]

end Registers

/-! ## The plan of a branch -/

section Plan

variable {β : Type} {i : Instruction} {c d : Cpu β} {p : SlotPlan}

/-- The plan holds the decision. -/
theorem SlotPlan.target_of_planned (h : slotPlan? i c = some p) :
    p.target = if i.taken c then some (i.goal c) else none := by
  unfold slotPlan? at h
  unfold Instruction.taken Instruction.goal
  cases hop : i.op <;> rw [hop] at h <;> dsimp only at h ⊢
  case bcT | bncT =>
    split at h
    · next hcode =>
        cases h
        cases hc : c.branchCode <;> rw [hc] at hcode
        all_goals first | rfl | cases hcode
    · cases h
  all_goals cases h
  all_goals rfl

theorem SlotPlan.skipsSlot_of_planned (h : slotPlan? i c = some p) : i.skipsSlot c = false := by
  unfold slotPlan? at h
  unfold Instruction.skipsSlot Instruction.taken
  cases hop : i.op <;> rw [hop] at h <;> dsimp only at h ⊢
  case bcT | bncT =>
    split at h
    · next hcode =>
        cases hc : c.branchCode <;> rw [hc] at hcode
        all_goals first | rfl | cases hcode
    · cases h

/-- A delayed branch without a plan is one that skips its slot. -/
theorem skipsSlot_of_unplanned (hdelayed : i.op.isDelayedBranch = true)
    (h : slotPlan? i c = none) : i.skipsSlot c = true ∧ i.taken c = false := by
  unfold slotPlan? at h
  unfold Instruction.skipsSlot Instruction.taken
  cases hop : i.op <;> rw [hop] at h hdelayed <;> dsimp only at h ⊢
  case bcT | bncT =>
    split at h
    · cases h
    · next hcode =>
        cases hc : c.branchCode <;> rw [hc] at hcode
        all_goals first | exact ⟨rfl, rfl⟩ | exact absurd rfl hcode
  case br | call | calli | bri | bla => cases h
  all_goals cases hdelayed

theorem SlotPlan.linked_of_planned (h : slotPlan? i c = some p)
    (hcall : i.op = .call ∨ i.op = .calli) :
    p.written = some (Execute.linkReg, c.afterSlot) := by
  unfold slotPlan? at h
  obtain hop | hop := hcall
  · rw [hop] at h
    cases h
    rfl
  · rw [hop] at h
    cases h
    rfl

theorem SlotPlan.counted_of_planned (h : slotPlan? i c = some p) (hop : i.op = .bla) :
    p.written = some (i.src2, c.readInt i.src1 + c.readInt i.src2) ∧
      p.loop = some (Execute.loopCondition (c.readInt i.src1) (c.readInt i.src2)) := by
  unfold slotPlan? at h
  rw [hop] at h
  cases h
  exact ⟨rfl, rfl⟩

/-- What a branch finds written before its slot, it has written itself. -/
theorem SlotPlan.readInt_enter_of_planned (h : slotPlan? i c = some p) {r : RegNum}
    (hlink : i.op = .call ∨ i.op = .calli → r ≠ Execute.linkReg)
    (hcounter : i.op = .bla → r ≠ i.src2) : (p.enter c).readInt r = c.readInt r := by
  unfold slotPlan? at h
  cases hop : i.op <;> rw [hop] at h <;> dsimp only at h
  case call => cases h; exact c.readInt_writeInt_of_ne (hlink (.inl hop)) _
  case calli => cases h; exact c.readInt_writeInt_of_ne (hlink (.inr hop)) _
  case bla => cases h; exact c.readInt_writeInt_of_ne (hcounter hop) _
  case br | bri => cases h; rfl
  case bcT | bncT =>
    split at h
    · cases h; rfl
    · cases h
  all_goals cases h

variable (p)

theorem SlotPlan.pc_leave (d : Cpu β) : (p.leave d).pc = p.target.getD d.afterSlot := by
  obtain ⟨written, target, returns, loop⟩ := p
  cases loop <;> rfl

theorem SlotPlan.regs_leave (d : Cpu β) : (p.leave d).regs = d.regs := by
  obtain ⟨written, target, returns, loop⟩ := p
  cases loop <;> cases returns <;> rfl

theorem SlotPlan.lcc_leave {lcc : Bool} (h : p.loop = some lcc) (d : Cpu β) :
    (p.leave d).control.psr.lcc = lcc := by
  unfold leave
  rw [h]
  rfl

theorem SlotPlan.inSlot_enter (c : Cpu β) :
    (p.enter c).inSlot = { c with pc := c.pc + 4#32, regs := (p.enter c).regs } := by
  unfold enter
  split <;> rfl

end Plan

section Commit

variable {β : Type} [Bus β]

theorem slotBody_pairing {depth : Nat} {paired : Bool} {s e : Cpu β}
    (h : slotBody depth paired s = .ok () e) : e.flags.dual = s.flags.dual := by
  unfold slotBody at h
  split at h
  · rw [Exec.bind_apply] at h
    split at h
    · next m hfirst => rw [executeOne_pairing h, executeOne_pairing hfirst]
    · cases h
  · exact executeOne_pairing h

theorem fetched_of_fetch {c m : Cpu β} {i : Instruction} (h : fetch c.pc c = .ok i.raw m) :
    Fetched c i (m.noteIssue c.pc i) :=
  ⟨m, h, lookedUp_of_fetch h, rfl⟩

/-- The slot of the branch `i`, which issues in `c` and is fetched in `m`, runs
from `s` to `e`, and then the branch ends in `d`. -/
structure SlotRun (depth : Nat) (i : Instruction) (c m s e d : Cpu β) : Prop where
  start : s = { m.noteIssue c.pc i with pc := c.pc + 4#32, regs := s.regs }
  linked : i.op = .call ∨ i.op = .calli →
    s.readInt Execute.linkReg = c.pc + 4#32 + if c.flags.dual then 8#32 else 4#32
  counted : i.op = .bla → i.src2 ≠ 0 →
    s.readInt i.src2 = c.readInt i.src1 + c.readInt i.src2
  others : ∀ r, (i.op = .call ∨ i.op = .calli → r ≠ Execute.linkReg) →
    (i.op = .bla → r ≠ i.src2) → s.readInt r = c.readInt r
  ran : slotBody depth c.flags.dual s = .ok () e
  regs : d.regs = e.regs
  loop : i.op = .bla →
    d.control.psr.lcc = Execute.loopCondition (c.readInt i.src1) (c.readInt i.src2)

theorem slotRun_of_planned {depth : Nat} {c m e : Cpu β} {i : Instruction} {p : SlotPlan}
    (fetched : fetch c.pc c = .ok i.raw m)
    (hplanned : slotPlan? i (m.noteIssue c.pc i) = some p)
    (hran : slotBody depth c.flags.dual (p.enter (m.noteIssue c.pc i)).inSlot = .ok () e) :
    SlotRun depth i c m (p.enter (m.noteIssue c.pc i)).inSlot e
      (p.leave (e.backAt c.pc)).retire := by
  -- Fetching leaves everything in place that the branch looks at.
  obtain ⟨mmu, icache, board, -, rfl⟩ := lookedUp_of_fetch fetched
  exact {
    start := p.inSlot_enter _
    linked := fun hcall => by
      show (p.enter _).readInt Execute.linkReg = _
      rw [SlotPlan.enter, SlotPlan.linked_of_planned hplanned hcall]
      exact (Cpu.readInt_writeInt _ (by decide) _).trans (if_pos rfl)
    counted := fun hop hcounter => by
      show (p.enter _).readInt i.src2 = _
      rw [SlotPlan.enter, (SlotPlan.counted_of_planned hplanned hop).1]
      exact (Cpu.readInt_writeInt _ hcounter _).trans (if_pos rfl)
    others := fun r hlink hcounter => SlotPlan.readInt_enter_of_planned hplanned hlink hcounter
    ran := hran
    regs := p.regs_leave _
    loop := fun hop => p.lcc_leave (SlotPlan.counted_of_planned hplanned hop).2 _ }

/-- A branch outside of slots ends the run of its step. -/
theorem IssuesAt.pc_step {b c d : Cpu β} (h : IssuesAt b c)
    (hran : executeOne maxNesting c = .ok () d) (hjumped : d.flags.pcUpdated = true)
    (hstays : b.entersTrap = false) : b.step.pc = d.pc := by
  have hpair : executePair maxNesting b.beginStep = .ok () d := by
    rw [h.executePair_eq, executePair_apply, hran]
    dsimp only
    rw [hjumped, Bool.not_true, Bool.and_false, if_neg Bool.false_ne_true]
  have hpc : d.advanceDual.pc = d.pc := by
    unfold Cpu.advanceDual
    split <;> rfl
  obtain ⟨d', hd', hstep⟩ | ⟨⟨d', hd'⟩, -⟩ := Cpu.step_of_stays hstays
  · rw [hpair] at hd'
    cases hd'
    rw [hstep]
    exact hpc
  · rw [hpair] at hd'
    cases hd'

/-- Whatever its slot does, a delayed branch that completes has gone where it
decided to go before. If it was not taken, it has gone behind its slot, and a
conditional branch that was not taken has run nothing in it. A call leaves the
address behind its slot where the slot can see it, and nothing takes it back.
The loop condition is that of the counter before. -/
theorem delayed_branch_commits {depth : Nat} {c m d : Cpu β} {i : Instruction}
    (fetched : fetch c.pc c = .ok i.raw m) (delayed : i.op.isDelayedBranch = true)
    (completed : executeOne (depth + 1) c = .ok () d) :
    let behind := c.pc + 4#32 + if c.flags.dual then 8#32 else 4#32
    d.pc = (if i.taken c then i.goal c else behind) ∧
      (i.skipsSlot c = true → d = ((m.noteIssue c.pc i).jump behind).retire ∧
        executedByOne (depth + 1) c = []) ∧
      (i.skipsSlot c = false → ∃ s e, SlotRun depth i c m s e d) ∧
      (∀ b, IssuesAt b c → depth + 1 = maxNesting → b.entersTrap = false →
        b.step.pc = d.pc) := by
  intro behind
  have hstep : d.flags.pcUpdated = true → ∀ b, IssuesAt b c → depth + 1 = maxNesting →
      b.entersTrap = false → b.step.pc = d.pc :=
    fun hjumped b hissues hdepth => hissues.pc_step (hdepth ▸ completed) hjumped
  have hlooked := lookedUp_of_fetch fetched
  have hfetched := fetched_of_fetch fetched
  cases hplanned : slotPlan? i (m.noteIssue c.pc i) with
  | none =>
      have hskips := skipsSlot_of_unplanned delayed hplanned
      rw [executeOne_of_fetched hfetched, Exec.bind_apply, execute_branch i _ _ delayed,
        hplanned] at completed
      obtain ⟨mmu, icache, board, -, rfl⟩ := hlooked
      obtain ⟨hskip, huntaken⟩ : i.skipsSlot c = true ∧ i.taken c = false := hskips
      cases completed
      refine ⟨?_, fun _ => ⟨rfl, ?_⟩, fun h => ?_, hstep rfl⟩
      · rw [huntaken]
        rfl
      · rw [executedByOne, fetched]
        dsimp only
        rw [if_pos delayed, hplanned]
      · rw [hskip] at h
        cases h
  | some p =>
      have hbranches : Branches c ⟨m.noteIssue c.pc i, p⟩ := ⟨i, hfetched, hplanned⟩
      rw [executeOne_of_branches hbranches] at completed
      split at completed
      · next e hran =>
          have hpairing : e.flags.dual = c.flags.dual :=
            (slotBody_pairing hran).trans (hfetched.pairing_enter p)
          have hrun := slotRun_of_planned fetched hplanned hran
          have hjumped := p.pcUpdated_leave (e.backAt c.pc)
          have hbehind : (e.backAt c.pc).afterSlot = behind := by
            show c.pc + 4#32 + (if e.flags.dual then 8#32 else 4#32) = behind
            rw [hpairing]
          have hpc : (p.leave (e.backAt c.pc)).retire.pc = p.target.getD behind := by
            rw [← hbehind, ← p.pc_leave]
            exact if_pos hjumped
          obtain ⟨mmu, icache, board, -, rfl⟩ := hlooked
          have hskips : i.skipsSlot c = false := SlotPlan.skipsSlot_of_planned hplanned
          have htarget : p.target = if i.taken c then some (i.goal c) else none :=
            SlotPlan.target_of_planned hplanned
          cases completed
          refine ⟨hpc.trans ?_, fun h => ?_, fun _ => ⟨_, e, hrun⟩, hstep hjumped⟩
          · rw [htarget]
            cases i.taken c <;> rfl
          · rw [hskips] at h
            cases h
      · cases completed

end Commit

/-- An indirect branch through `r4` with a call in its slot, whose own slot
clears `r4`. -/
def nestedCall : Cpu OpenMemory :=
  (Cpu.before 0x1000#32 [(0x1000#32, [0x40002000#32, 0x6c000010#32, 0xe4040000#32])]).writeInt 4
    0x2000#32

/-- The call has gone to `0x1048` and left its link, but the branch goes where
`r4` pointed to. -/
theorem delayed_branch_commits_of_nested :
    ∃ m d, fetch nestedCall.pc nestedCall = .ok 0x40002000#32 m ∧
      executeOne 3 nestedCall = .ok () d ∧ d.readInt 4 = 0#32 ∧ d.readInt 1 = 0x100c#32 ∧
      d.pc = 0x2000#32 := by
  have hword : (answerOf (fetch nestedCall.pc nestedCall)).toOption = some 0x40002000#32 := by
    decide +kernel
  have hthrough : ranThrough (executeOne 3 nestedCall) = true := by decide +kernel
  have hregs : (finalState (executeOne 3 nestedCall)).readInt 4 = 0#32 ∧
      (finalState (executeOne 3 nestedCall)).readInt 1 = 0x100c#32 := by
    decide +kernel
  have hgoal : (⟨0x40002000#32⟩ : Instruction).taken nestedCall = true ∧
      (⟨0x40002000#32⟩ : Instruction).goal nestedCall = 0x2000#32 := by
    decide +kernel
  have hcompleted := eq_ok_of_ranThrough hthrough
  cases hfetch : fetch nestedCall.pc nestedCall with
  | ok w m =>
      rw [hfetch] at hword
      obtain rfl : w = 0x40002000#32 := Option.some.inj hword
      have hpc := (delayed_branch_commits hfetch (i := ⟨0x40002000#32⟩) (by decide)
        hcompleted).1
      rw [hgoal.1, if_pos rfl, hgoal.2] at hpc
      exact ⟨m, _, rfl, hcompleted, hregs.1, hregs.2, hpc⟩
  | error e m =>
      rw [hfetch] at hword
      cases hword

end I860
