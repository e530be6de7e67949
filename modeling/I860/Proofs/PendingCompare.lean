import I860.Proofs.Coherence
import I860.Proofs.FaultPlace
import I860.Proofs.HandlerMode

/-!
# A compare is pending in dual mode only

In dual mode a compare and the branch on it may be in one pair, and the branch
then looks at what the compare has just found and not at the status register.
This is to end with the pair, and with dual mode. A compare notes its result
where a pair is issued in dual mode, the end of the step takes the note away, a
trap saves it together with the mode, and the return from the trap brings both
back, which may happen in a slot and with more instructions to come in the same
step.

So the two things to be remembered belong together at every moment, and not
only between steps: the note is there only in dual mode, and what was saved has
one only if it was saved in dual mode (`PendingInDual`). This is kept by
whatever a processor does between instructions, by every instruction and by the
host, one by one, and therefore holds at every point on the course of a step
(`PendingInDual.course`), in particular where an instruction of a nested slot
issues (`ComesTo.course`). Between steps more is true, since the end of a step
only leaves the note alone if the step has returned from a trap
(`pending_compares`).
-/

namespace I860

variable {β : Type}

/-! ## What a compare leaves pending -/

/-- The instruction is a floating-point compare. -/
def Instruction.compares (i : Instruction) : Bool :=
  match i.op with
  | .pfgt | .pfeq => true
  | _ => false

namespace Execute

variable (c : Cpu β) (i : Instruction)

@[simp] theorem comparePending_issue (pipe : FloatPipe) (pipelined : Bool) (result : PipeSlot) :
    (issue c i pipe pipelined result).comparePending = c.comparePending := by
  cases pipelined with
  | true => cases pipe <;> rfl
  | false => rfl

@[simp] theorem comparePending_autoIncrement (addr : VirtAddr) :
    (autoIncrement c i addr).comparePending = c.comparePending := by
  unfold autoIncrement
  split <;> rfl

@[simp] theorem comparePending_shift (op : AluOp) :
    (shift op i c).comparePending = c.comparePending := by
  unfold shift
  split <;> rfl

@[simp] theorem comparePending_branchIf (taken : Bool) (target : Word) :
    (branchIf taken target c).comparePending = c.comparePending := by
  unfold branchIf
  split <;> rfl

@[simp] theorem comparePending_ldC : (ldC i c).comparePending = c.comparePending := by
  unfold ldC
  split
  · rfl
  · next reg _ =>
      cases reg with
      | fir =>
          dsimp only [Cpu.readControl]
          split <;> rfl
      | _ => rfl

@[simp] theorem comparePending_stC : (stC i c).comparePending = c.comparePending := by
  unfold stC
  split
  · rfl
  · next reg _ =>
      obtain ⟨control, mmu, icache, fpu, order, heq, -, -⟩ :=
        c.writeControl_cases reg (c.readInt i.src1)
      rw [heq]

/-- A compare leaves its result pending in dual mode only. -/
theorem comparePending_setCompare (found : Bool) :
    (setCompare i found c).comparePending = (c.comparePending || c.dual.isDual) := by
  have hnoted : ∀ noted : Cpu β,
      (if i.pipelined then issue noted i .adder true (.ofBits 0#64 i.doubleSource)
        else noted).comparePending = noted.comparePending := by
    intro noted
    split
    · exact comparePending_issue ..
    · rfl
  unfold setCompare
  rw [hnoted]
  cases hdual : c.dual.isDual with
  | true => rw [if_pos rfl, Bool.or_true]
  | false =>
      rw [if_neg Bool.false_ne_true, Bool.or_false]
      rfl

end Execute

section Execute

variable [Bus β]

/-- An instruction that is no delayed branch leaves a compare pending if one was
pending before, or if it is one itself and issues in dual mode. -/
theorem execute_comparePending (slot : Exec β Unit) {i : Instruction}
    (straight : i.op.isDelayedBranch = false) (c : Cpu β) :
    Ends c
      (fun _ d => d.comparePending = (c.comparePending || (i.compares && c.dual.isDual)))
      (execute slot i c) := by
  have hlooked : ∀ {d : Cpu β}, LookedUp c d → d.comparePending = c.comparePending := by
    rintro d ⟨mmu, icache, board, -, rfl⟩
    rfl
  have hstored : ∀ {d : Cpu β}, Stored c d → d.comparePending = c.comparePending := by
    rintro d ⟨mmu, icache, board, rfl⟩
    rfl
  cases hcompares : i.compares with
  | true =>
      have hop : i.op = .pfgt ∨ i.op = .pfeq := by
        unfold Instruction.compares at hcompares
        split at hcompares
        · next hop => exact .inl hop
        · next hop => exact .inr hop
        · cases hcompares
      unfold execute
      rw [Bool.true_and]
      obtain hop | hop := hop <;> rw [hop]
      · exact .ok (Execute.comparePending_setCompare ..)
      · exact .ok (Execute.comparePending_setCompare ..)
  | false =>
      rw [Bool.false_and, Bool.or_false]
      unfold execute
      cases hop : i.op <;> dsimp only
      case bri | calli | br | call | bcT | bncT | bla =>
        simp [hop, Op.isDelayedBranch] at straight
      case pfgt | pfeq => simp [Instruction.compares, hop] at hcompares
      case illegal | trap => exact .raise (by decide) (.refl c)
      case lock | unlock => exact .ok rfl
      case intovr => exact intovr_ends c rfl
      case ldInt => exact ldInt_ends i c fun _ _ hd => (hlooked hd :)
      case stInt => exact stInt_ends i c fun _ hd => hstored hd
      case fld =>
        exact fld_ends i c fun _ _ hd =>
          (Execute.comparePending_autoIncrement ..).trans (hlooked hd :)
      case pfld =>
        exact pfld_ends i c fun _ _ hd =>
          (Execute.comparePending_autoIncrement ..).trans (hlooked hd :)
      case fst =>
        exact fst_ends i c fun _ _ hd =>
          (Execute.comparePending_autoIncrement ..).trans (hstored hd)
      case pstD =>
        exact pstD_ends i c fun _ _ _ hd =>
          (Execute.comparePending_autoIncrement ..).trans (hstored hd :)
      case dualOp => exact guarded_ends c _ rfl
      case frcp | frsqr => exact reciprocal_ends i c _ fun _ => rfl
      case fmul | pfmul3 | fadd | fsub =>
        exact guarded_ends c _ (Execute.comparePending_issue ..)
      case fmlow => exact guarded_ends c _ rfl
      case famov => exact guarded_ends c _ (Execute.comparePending_issue ..)
      case bc | bnc | bte | btne => exact .ok (Execute.comparePending_branchIf ..)
      case ldC => exact .ok (Execute.comparePending_ldC ..)
      case stC => exact .ok (Execute.comparePending_stC ..)
      case flush => exact .ok (Execute.comparePending_autoIncrement ..)
      case shl | shr | shra => exact .ok (Execute.comparePending_shift ..)
      case fix | ftrunc | fiadd | fisub | faddp | faddz | form | fzchkl | fzchks =>
        exact .ok (Execute.comparePending_issue ..)
      -- The rest are a single write.
      all_goals exact .ok rfl

end Execute

/-- The host has no access to how far dual mode is. -/
theorem HostAction.modeKept [Bus β] {c d : Cpu β} (h : HostAction c d) :
    d.comparePending = c.comparePending ∧ d.dual = c.dual ∧ d.saved = c.saved := by
  cases h with
  | outside houtside => cases houtside <;> exact ⟨rfl, rfl, rfl⟩
  | writeControl reg v =>
      obtain ⟨control, mmu, icache, fpu, order, heq, -, -⟩ := c.writeControl_cases reg v
      rw [heq]
      exact ⟨rfl, rfl, rfl⟩
  | inspectInstruction pc =>
      obtain ⟨psr, hstate⟩ := c.inspectInstruction_state pc
      rw [hstate]
      obtain ⟨m, ⟨mmu, icache, board, -, rfl⟩, hm | ⟨kind, hm⟩⟩ := fetch_looked pc c <;>
        (rw [hm]; exact ⟨rfl, rfl, rfl⟩)
  | withFloatUnit u => exact ⟨rfl, rfl, rfl⟩

/-! ## The invariant -/

/-- A compare is pending in dual mode only, and so it is in what the last trap
has saved. -/
structure PendingInDual (c : Cpu β) : Prop where
  current : c.comparePending = true → c.dual ≠ .none
  saved : c.saved.comparePending = true → c.saved.mode ≠ .none

namespace PendingInDual

variable {c d : Cpu β}

theorem of_kept (h : PendingInDual c) (hpending : d.comparePending = c.comparePending)
    (hdual : d.dual = c.dual) (hsaved : d.saved = c.saved) : PendingInDual d :=
  ⟨by rw [hpending, hdual]; exact h.current, by rw [hsaved]; exact h.saved⟩

/-- Outside of dual mode the next conditional branch sees the status register. -/
theorem branchCode_eq (h : PendingInDual c) (hdual : c.dual = .none) :
    c.branchCode = c.control.psr.cc := by
  cases hpending : c.comparePending with
  | true => exact absurd hdual (h.current hpending)
  | false => rw [Cpu.branchCode, hpending, if_neg Bool.false_ne_true]

theorem reset (c : Cpu β) : PendingInDual c.reset := ⟨nofun, nofun⟩

variable [Bus β]

theorem interlude (h : PendingInDual c) (next : Interlude c d) : PendingInDual d := by
  cases next with
  | fetch pc =>
      obtain ⟨m, ⟨mmu, icache, board, -, rfl⟩, hm | ⟨kind, hm⟩⟩ := fetch_looked pc c
      · rw [hm]
        exact ⟨h.current, h.saved⟩
      · rw [hm]
        exact ⟨h.current, h.saved⟩
  | refuse straight ran =>
      obtain ⟨m, kind, ⟨mmu, icache, board, -, rfl⟩, rfl⟩ := refuse_looked straight ran
      exact ⟨h.current, h.saved⟩
  -- What was saved comes back, and is still there.
  | returnFromTrap => exact ⟨h.saved, h.saved⟩
  | enterTrap t => exact ⟨nofun, h.current⟩
  | advanceDual =>
      unfold Cpu.advanceDual
      split
      · exact h
      · exact ⟨nofun, h.saved⟩
  | _ => exact ⟨h.current, h.saved⟩

theorem execute (h : PendingInDual c) {slot : Exec β Unit} {i : Instruction}
    (straight : i.op.isDelayedBranch = false) (ran : execute slot i c = .ok () d) :
    PendingInDual d := by
  have hsame := ((execute_ends i c slot straight).completed ran).sameMode
  have hpending := (execute_comparePending slot straight c).completed ran
  refine ⟨fun hd => ?_, by rw [hsame.saved]; exact h.saved⟩
  rw [hsame.dual]
  rw [hpending, Bool.or_eq_true, Bool.and_eq_true] at hd
  obtain hc | ⟨-, hdual⟩ := hd
  · exact h.current hc
  · intro hnone
    rw [hnone] at hdual
    cases hdual

/-- The invariant holds all along a course, in the middle of steps too. -/
theorem course {log : List (Executed β)} (h : PendingInDual c) (way : Course c log d) :
    PendingInDual d :=
  way.preserves (fun next hc => hc.interlude next)
    (fun straight ran hc => hc.execute straight ran) h

theorem host (h : PendingInDual c) (action : HostAction c d) : PendingInDual d :=
  let ⟨hpending, hdual, hsaved⟩ := action.modeKept
  h.of_kept hpending hdual hsaved

end PendingInDual

variable [Bus β]

/-! ## Every instruction of a step is on its course -/

section Places

variable {b c m n s : Cpu β}

theorem IssuesAt.course (h : IssuesAt b m) : ∃ log, Course b log m := by
  cases h with
  | first => exact ⟨[], .single .beginStep⟩
  | second _ hran _ =>
      have hcourse := executeOne_course maxNesting b.beginStep
      rw [hran] at hcourse
      exact ⟨_, .interlude .beginStep hcourse⟩

theorem Fetched.course {i : Instruction} (h : Fetched c i n) : Course c [] n := by
  obtain ⟨d, hfetch, -, rfl⟩ := h
  have hfetched : Interlude c (finalState (fetch c.pc c)) := .fetch c.pc
  rw [hfetch] at hfetched
  exact .interlude hfetched (.single (.noteIssue c.pc i))

theorem Branches.course {branch : PendingBranch β} (h : Branches c branch) :
    Course c [] branch.slotStart := by
  obtain ⟨i, hfetched, -⟩ := h
  exact (hfetched.course.trans (branch.plan.enter_course branch.noted)).tail
    (.place ((branch.plan.enter branch.noted).pc + 4#32) _)

/-- The way to a nested slot, from the outermost branch inwards. -/
theorem ComesTo.course {depth : Nat} {branches : List (PendingBranch β)}
    (h : ComesTo depth c branches m) : ∃ log, Course c log m := by
  induction h with
  | here => exact ⟨[], .stop _⟩
  | firstWord hbranches _ ih =>
      obtain ⟨log, hrest⟩ := ih
      exact ⟨log, hbranches.course.trans hrest⟩
  | @secondWord depth c s m branch inner hbranches _ hfirst _ ih =>
      obtain ⟨log, hrest⟩ := ih
      have hword := executeOne_course depth branch.slotStart
      rw [hfirst] at hword
      exact ⟨_, (hbranches.course.trans hword).trans hrest⟩

/-- In the step from `b` the instruction `i` at the program counter of `m` issues
in `n`: in the pair of the step, or in a slot, however deep. -/
def IssuesInStep (b m : Cpu β) (i : Instruction) (n : Cpu β) : Prop :=
  ∃ s branches, IssuesAt b s ∧ ComesTo maxNesting s branches m ∧ Fetched m i n

theorem IssuesInStep.course {i : Instruction} (h : IssuesInStep b m i n) :
    ∃ log, Course b log n := by
  obtain ⟨s, branches, hissues, hcomes, hfetched⟩ := h
  obtain ⟨log, hto⟩ := hissues.course
  obtain ⟨log', hin⟩ := hcomes.course
  exact ⟨_, (hto.trans hin).trans hfetched.course⟩

theorem comesTo_of_mem_words {depth : Nat} {x : IssuedWord} (h : x ∈ wordsOfOne depth c) :
    ∃ branches m n, ComesTo depth c branches m ∧ Fetched m x.2 n ∧ m.pc = x.1 := by
  induction depth generalizing c with
  | zero => cases h
  | succ depth ih =>
      obtain ⟨i, n, hfetched⟩ | ⟨kind, d, hfailed⟩ := fetched_or_unfetched c
      · rw [wordsOfOne_of_fetched hfetched] at h
        obtain rfl | h := List.mem_cons.1 h
        · exact ⟨[], c, n, .here, hfetched, rfl⟩
        · cases hplanned : slotPlan? i n with
          | none =>
              rw [hplanned] at h
              cases h
          | some p =>
              have hbranches : Branches c ⟨n, p⟩ := ⟨i, hfetched, hplanned⟩
              rw [hplanned] at h
              obtain hfirst | hsecond := List.mem_append.1 h
              · obtain ⟨inner, m, n', hcomes, hissued⟩ := ih hfirst
                exact ⟨_, m, n', .firstWord hbranches hcomes, hissued⟩
              · split at hsecond
                · next hpaired =>
                    split at hsecond
                    · next s hran =>
                        obtain ⟨inner, m, n', hcomes, hissued⟩ := ih hsecond
                        exact ⟨_, m, n', .secondWord hbranches
                          ((hfetched.pairing_enter p).symm.trans hpaired) hran hcomes, hissued⟩
                    · cases hsecond
                · cases hsecond
      · rw [wordsOfOne, hfailed] at h
        cases h

/-- No instruction of a step is left out. -/
theorem issuesInStep_of_mem_words {x : IssuedWord}
    (h : x ∈ wordsOfPair maxNesting b.beginStep) :
    ∃ m n, IssuesInStep b m x.2 n ∧ m.pc = x.1 := by
  unfold wordsOfPair at h
  obtain hfirst | hsecond := List.mem_append.1 h
  · obtain ⟨branches, m, n, hcomes, hfetched, hpc⟩ := comesTo_of_mem_words hfirst
    exact ⟨m, n, ⟨_, branches, .first, hcomes, hfetched⟩, hpc⟩
  · split at hsecond
    · next s hran =>
        split at hsecond
        · next hgoeson =>
            obtain ⟨hlow, hstraight⟩ := Bool.and_eq_true_iff.1 hgoeson
            rw [Bool.not_eq_true'] at hlow hstraight
            obtain ⟨branches, m, n, hcomes, hfetched, hpc⟩ := comesTo_of_mem_words hsecond
            exact ⟨m, n, ⟨s, branches, .second hlow hran hstraight, hcomes, hfetched⟩, hpc⟩
        · cases hsecond
    · cases hsecond

end Places

/-! ## What conditional branches look at -/

section Decisions

open Execute

/-- Those conditional branches that look at the condition code find `code`, and
do what it says. -/
structure BranchesOn (code : Bool) (slot : Exec β Unit) (i : Instruction) (n : Cpu β) :
    Prop where
  bc : i.op = .bc → execute slot i n =
    .ok () (branchIf code (branchTarget n.pc i.branchOffset) n)
  bnc : i.op = .bnc → execute slot i n =
    .ok () (branchIf (!code) (branchTarget n.pc i.branchOffset) n)
  bcT : i.op = .bcT → execute slot i n =
    if code then (SlotPlan.toward (branchTarget n.pc i.branchOffset)).run slot n
    else .ok () (n.jump n.afterSlot)
  bncT : i.op = .bncT → execute slot i n =
    if code then .ok () (n.jump n.afterSlot)
    else (SlotPlan.toward (branchTarget n.pc i.branchOffset)).run slot n

theorem branchesOn_branchCode (slot : Exec β Unit) (i : Instruction) (n : Cpu β) :
    BranchesOn n.branchCode slot i n where
  bc hop := by
    unfold execute
    rw [hop]
    dsimp only
    rw [Exec.modify_apply, Execute.bc, beq_true]
  bnc hop := by
    unfold execute
    rw [hop]
    dsimp only
    rw [Exec.modify_apply, Execute.bc, beq_false]
  bcT hop := by
    unfold execute
    rw [hop]
    dsimp only
    rw [bcT_eq]
    cases n.branchCode <;> rfl
  bncT hop := by
    unfold execute
    rw [hop]
    dsimp only
    rw [bcT_eq]
    cases n.branchCode <;> rfl

end Decisions

/-! ## Between steps -/

/-- In a run of a processor that was built from a configuration, `c` is between
two steps. If there has been a step since the last reset, the last one has begun
in `last`. Steps that find slots nested without end are none. -/
inductive StepBoundary (config : Config) : (last : Option (Cpu β)) → (c : Cpu β) → Prop
  | new {board : β} {c : Cpu β} (built : Cpu.new board config = .ok c) :
      StepBoundary config none c
  | reset {last : Option (Cpu β)} {c : Cpu β} (h : StepBoundary config last c) :
      StepBoundary config none c.reset
  | step {last : Option (Cpu β)} {c : Cpu β} (h : StepBoundary config last c)
      (ends : ∀ d, executePair maxNesting c.beginStep ≠ .error .endlessSlot d) :
      StepBoundary config (some c) c.step
  | host {last : Option (Cpu β)} {c d : Cpu β} (h : StepBoundary config last c)
      (action : HostAction c d) : StepBoundary config last d

section Boundaries

variable {config : Config} {last : Option (Cpu β)} {c d : Cpu β}

/-- All states that a run gets into are between steps. -/
theorem Reachable.stepBoundary (h : Reachable config c) :
    ∃ last, StepBoundary config last c := by
  induction h with
  | new built => exact ⟨none, .new built⟩
  | reset _ ih => exact ⟨none, .reset ih.choose_spec⟩
  | host _ haction ih => exact ⟨_, .host ih.choose_spec haction⟩
  | @step c _ ih =>
      obtain ⟨last, hc⟩ := ih
      by_cases hends : ∀ d, executePair maxNesting c.beginStep ≠ .error .endlessSlot d
      · exact ⟨some c, .step hc hends⟩
      · have hendless : ∃ d, executePair maxNesting c.beginStep = .error .endlessSlot d := by
          simpa using hends
        obtain ⟨d, hran⟩ := hendless
        have hstays : c.step = c := by rw [Cpu.step, hran]
        rw [hstays]
        exact ⟨last, hc⟩

/-- Only a step that returns from a trap, and enters no other, can leave a
compare pending. -/
theorem step_comparePending
    (ends : ∀ d, executePair maxNesting c.beginStep ≠ .error .endlessSlot d)
    (pending : c.step.comparePending = true) : c.leavesTrap = true ∧ c.entersTrap = false := by
  have hend := c.step_end
  generalize c.step = s at hend pending
  cases hend with
  | @completed d hran hquiet =>
      have hrestored : d.flags.dualRestored = true := by
        cases hflag : d.flags.dualRestored with
        | true => rfl
        | false =>
            have hpending : d.advanceDual.comparePending = true := pending
            rw [Cpu.advanceDual, hflag, if_neg Bool.false_ne_true] at hpending
            cases hpending
      unfold Cpu.leavesTrap Cpu.entersTrap
      rw [hran]
      exact ⟨hrestored, hquiet⟩
  | interrupted hran haccepts => cases pending
  | faulted hran => cases pending
  | endless hran => exact absurd hran (ends _)

namespace StepBoundary

theorem pendingInDual (h : StepBoundary config last c) : PendingInDual c := by
  induction h with
  | new built =>
      rw [(Cpu.eq_of_new built).2]
      exact .reset _
  | reset _ _ => exact .reset _
  | @step _ c _ _ ih => exact ih.course (step_course c)
  | host _ haction ih => exact ih.host haction

theorem returned_of_pending (h : StepBoundary config last c) (pending : c.comparePending = true) :
    ∃ b, last = some b ∧ b.leavesTrap = true ∧ b.entersTrap = false := by
  induction h with
  | new built =>
      rw [(Cpu.eq_of_new built).2] at pending
      cases pending
  | reset _ _ => cases pending
  | @step _ c _ hends _ => exact ⟨c, rfl, step_comparePending hends pending⟩
  | host _ haction ih => exact ih (haction.modeKept.1 ▸ pending)

end StepBoundary

/-- Between steps a compare is pending only in dual mode, and only if the last
step has returned from a trap and entered none. A compare that was saved was
saved in dual mode. Wherever an instruction issues in the step from there, also
in nested slots and behind a return from a trap, both are still so, and outside
of dual mode conditional branches look at the status register. -/
theorem pending_compares (h : StepBoundary config last c) :
    (c.comparePending = true →
      c.dual ≠ .none ∧ ∃ b, last = some b ∧ b.leavesTrap = true ∧ b.entersTrap = false) ∧
    (c.saved.comparePending = true → c.saved.mode ≠ .none) ∧
    ∀ m i n, IssuesInStep c m i n →
      PendingInDual n ∧
        (n.dual = .none → ∀ slot, BranchesOn n.control.psr.cc slot i n) := by
  have hinv := h.pendingInDual
  refine ⟨fun hpending => ⟨hinv.current hpending, h.returned_of_pending hpending⟩, hinv.saved, ?_⟩
  intro m i n hissues
  obtain ⟨log, hcourse⟩ := hissues.course
  have hn := hinv.course hcourse
  refine ⟨hn, fun hdual slot => ?_⟩
  rw [← hn.branchCode_eq hdual]
  exact branchesOn_branchCode slot i n

end Boundaries

/-- A processor on its way into dual mode, before a pair with a compare beside
`trap`. The handler reads where the trap was, meets a conditional branch, and
returns. -/
def compareBesideTrap : Cpu OpenMemory :=
  Cpu.before 0x1000#32
    [(0x1000#32, [0xb0000200#32, 0xe0000000#32, 0x48000635#32, 0x44000000#32]),
      (0xffffff00#32, [0x30070000#32, 0x70000000#32, 0x40003800#32, 0xe0000000#32])]

/-- The first step of the handler. -/
def inHandler : Cpu OpenMemory := compareBesideTrap.step.step

/-- The trap has saved the compare. The branch in the handler looks at the
status register, and when the handler has returned the compare is pending
again. -/
theorem pending_compares_of_trap :
    (∃ config, StepBoundary config (some inHandler.step) inHandler.step.step) ∧
      inHandler.step.step.comparePending = true ∧ inHandler.step.step.dual ≠ .none ∧
      inHandler.step.leavesTrap = true ∧ inHandler.saved.comparePending = true ∧
      inHandler.saved.mode ≠ .none ∧
      ∃ m n, IssuesInStep inHandler m ⟨0x70000000#32⟩ n ∧
        (⟨0x70000000#32⟩ : Instruction).op = .bc ∧
        ∀ slot, BranchesOn n.control.psr.cc slot ⟨0x70000000#32⟩ n := by
  let config := Config.default
  let placed : Config := { config with general := { config.general with startPc := 0x1000#32 } }
  have hvalid : placed.validate = .ok placed := by
    have hnone : placed.problem? = none := by decide
    rw [Config.validate, hnone]
  have hbuilt : StepBoundary placed none compareBesideTrap := .new (Cpu.new_of_validate hvalid _)
  have hends : ∀ c : Cpu OpenMemory, ranThrough (executePair maxNesting c.beginStep) = true ∨
      (trapOf (executePair maxNesting c.beginStep)).isSome = true →
      ∀ d, executePair maxNesting c.beginStep ≠ .error .endlessSlot d := by
    rintro c (hthrough | htrap) d hd
    · rw [hd] at hthrough
      cases hthrough
    · rw [hd] at htrap
      cases htrap
  have hfirst := hbuilt.step (hends _ (.inl (by decide +kernel)))
  have hhandler : StepBoundary placed _ inHandler :=
    hfirst.step (hends _ (.inr (by decide +kernel)))
  have hreturning := hhandler.step (hends _ (.inl (by decide +kernel)))
  have hreturned := hreturning.step (hends _ (.inl (by decide +kernel)))
  -- Behind the read of the fault address the branch issues.
  let m := finalState (executeOne maxNesting inHandler.beginStep)
  have hissues : IssuesAt inHandler m :=
    .second (by decide +kernel) (eq_ok_of_ranThrough (by decide +kernel)) (by decide +kernel)
  have hword : m.instruction? = some ⟨0x70000000#32⟩ := by decide +kernel
  obtain ⟨n, hfetched⟩ : ∃ n, Fetched m ⟨0x70000000#32⟩ n := by
    unfold Cpu.instruction? at hword
    split at hword
    · next w d hfetch =>
        cases hword
        exact ⟨_, d, hfetch, lookedUp_of_fetch hfetch, rfl⟩
    · cases hword
  have hsingle : n.dual = .none := by
    have hdual : m.dual = .none := by decide +kernel
    obtain ⟨d, -, ⟨mmu, icache, board, -, rfl⟩, rfl⟩ := hfetched
    exact hdual
  have hpending : inHandler.step.step.comparePending = true := by decide +kernel
  have hsaved : inHandler.saved.comparePending = true := by decide +kernel
  obtain ⟨hcurrent, -, -⟩ := pending_compares hreturned
  obtain ⟨-, hmode, hissued⟩ := pending_compares hhandler
  obtain ⟨hdual, b, hlast, hleaves, -⟩ := hcurrent hpending
  cases hlast
  have hbranch : IssuesInStep inHandler m ⟨0x70000000#32⟩ n := ⟨m, [], hissues, .here, hfetched⟩
  exact ⟨⟨placed, hreturned⟩, hpending, hdual, hleaves, hsaved, hmode hsaved, m, n, hbranch,
    by decide, (hissued m _ n hbranch).2 hsingle⟩

end I860
