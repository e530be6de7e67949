import I860.Proofs.Steps

/-!
# The course of a run

Between two instructions a processor does a few things that are no instruction:
it fetches, it notes what it has fetched, it goes into a delay slot and comes
out of it, it enters and leaves trap handlers. `Interlude` lists them. A
`Course` is a way from one state to another that is made of these and of
instructions that were executed to their end, and carries the log of the
latter, each with the states right before and right after it.

Delayed branches are not in the log. All that they do is done by interludes,
around the instructions of their slots, and undone by interludes where a slot
faults. An instruction that is refused is an interlude too, since it has only
looked up addresses. So whatever the data registers and the pipes go through
is in the log, and a statement about them over a whole run needs two facts, of
interludes and of single instructions. `step_course` gives every step its
course, however deep its slots are nested and however it ends.
-/

namespace I860

variable {β : Type}

/-- An instruction that was executed to its end, other than a delayed branch,
and the states before and after it. -/
structure Executed (β : Type) where
  word : Instruction
  before : Cpu β
  after : Cpu β

variable [Bus β]

/-- What a processor does between instructions. -/
inductive Interlude (c : Cpu β) : Cpu β → Prop
  | fetch (pc : VirtAddr) : Interlude c (finalState (fetch pc c))
  | noteIssue (pc : VirtAddr) (i : Instruction) : Interlude c (c.noteIssue pc i)
  | refuse {slot : Exec β Unit} {i : Instruction} {e : Fault} {d : Cpu β}
      (straight : i.op.isDelayedBranch = false) (ran : execute slot i c = .error e d) :
      Interlude c d
  | place (pc : Word) (updated : Bool) :
      Interlude c { c with pc := pc, flags := { c.flags with pcUpdated := updated } }
  | link (r : RegNum) (v : Word) : Interlude c (c.writeInt r v)
  | loop (lcc : Bool) : Interlude c (c.setPsr { c.control.psr with lcc := lcc })
  | returnFromTrap : Interlude c c.returnFromTrap
  | retire : Interlude c c.retire
  | beginStep : Interlude c c.beginStep
  | advanceDual : Interlude c c.advanceDual
  | interrupt : Interlude c (c.setPsr { c.control.psr with inr := true })
  | enterTrap (t : Trap) : Interlude c (c.enterTrap t)
  | countStep : Interlude c c.countStep

/-- A fetch looks up addresses, and may leave a fault on record. -/
theorem fetch_looked (pc : VirtAddr) (c : Cpu β) :
    ∃ m, LookedUp c m ∧
      (finalState (fetch pc c) = m ∨ ∃ kind, finalState (fetch pc c) = m.faulted kind) := by
  have hends := fetch_ends c pc
  cases hfetch : fetch pc c with
  | ok w d =>
      rw [hfetch] at hends
      cases hends with
      | ok hlooked => exact ⟨d, hlooked, .inl rfl⟩
  | error e d =>
      rw [hfetch] at hends
      cases hends with
      | refused kind hlooked => exact ⟨_, hlooked, .inr ⟨kind, rfl⟩⟩

/-- An instruction that is refused has looked up addresses, and leaves a fault
on record. -/
theorem refuse_looked {slot : Exec β Unit} {i : Instruction} {e : Fault} {c d : Cpu β}
    (straight : i.op.isDelayedBranch = false) (ran : execute slot i c = .error e d) :
    ∃ m kind, LookedUp c m ∧ d = m.faulted kind := by
  have hends := execute_ends i c slot straight
  rw [ran] at hends
  cases hends with
  | refused kind hlooked => exact ⟨_, kind, hlooked, rfl⟩

/-- What completing an instruction makes true. -/
theorem Ends.completed {c d : Cpu β} {completed : Unit → Cpu β → Prop}
    {r : EStateM.Result Fault (Cpu β) Unit} (h : Ends c completed r) (ran : r = .ok () d) :
    completed () d := by
  rw [ran] at h
  cases h with
  | ok hd => exact hd

/-- A way from one state to another, with the instructions executed on it. -/
inductive Course : Cpu β → List (Executed β) → Cpu β → Prop
  | stop (c : Cpu β) : Course c [] c
  | interlude {c d e : Cpu β} {log : List (Executed β)} (first : Interlude c d)
      (rest : Course d log e) : Course c log e
  | executed {c d e : Cpu β} {log : List (Executed β)} {slot : Exec β Unit} {i : Instruction}
      (straight : i.op.isDelayedBranch = false) (ran : execute slot i c = .ok () d)
      (rest : Course d log e) : Course c (⟨i, c, d⟩ :: log) e

namespace Course

variable {c d e : Cpu β} {log log' : List (Executed β)}

theorem single (h : Interlude c d) : Course c [] d := .interlude h (.stop d)

theorem trans (h : Course c log d) (h' : Course d log' e) : Course c (log ++ log') e := by
  induction h with
  | stop c => exact h'
  | interlude hfirst _ ih => exact .interlude hfirst (ih h')
  | executed hstraight hran _ ih => exact .executed hstraight hran (ih h')

theorem tail (h : Course c log d) (h' : Interlude d e) : Course c log e := by
  have happend := h.trans (.single h')
  rwa [List.append_nil] at happend

end Course

/-- What interludes and single instructions preserve, a course preserves. -/
theorem Course.preserves {P : Cpu β → Prop}
    (hinterlude : ∀ {c d}, Interlude c d → P c → P d)
    (hexecute : ∀ {slot : Exec β Unit} {i : Instruction} {c d}, i.op.isDelayedBranch = false →
      execute slot i c = .ok () d → P c → P d)
    {c d : Cpu β} {log : List (Executed β)} (h : Course c log d) (hc : P c) : P d := by
  induction h with
  | stop c => exact hc
  | interlude hfirst _ ih => exact ih (hinterlude hfirst hc)
  | executed hstraight hran _ ih => exact ih (hexecute hstraight hran hc)

/-! ## Logs -/

/-- The log of a slot, given the log of one instruction. -/
def executedInSlot (log : Cpu β → List (Executed β)) (one : Exec β Unit) (c : Cpu β) :
    List (Executed β) :=
  log c ++
    if c.flags.dual then
      match one c with
      | .ok _ d => log d
      | .error _ _ => []
    else []

/-- What is executed for the instruction at the program counter: itself, or
the instructions in its slot. -/
def executedByOne : (depth : Nat) → Cpu β → List (Executed β)
  | 0, _ => []
  | depth + 1, c =>
      match fetch c.pc c with
      | .error _ _ => []
      | .ok w d =>
          let i : Instruction := ⟨w⟩
          let n := d.noteIssue c.pc i
          if i.op.isDelayedBranch then
            match slotPlan? i n with
            | none => []
            | some p =>
                executedInSlot (executedByOne depth) (executeOne depth) (p.enter n).inSlot
          else
            match execute (delaySlot (executeOne depth)) i n with
            | .ok _ d => [⟨i, n, d⟩]
            | .error _ _ => []

/-- What is executed for the pair at the program counter. -/
def executedByPair (depth : Nat) (c : Cpu β) : List (Executed β) :=
  executedByOne depth c ++
    match executeOne depth c with
    | .ok _ m => if !c.pc.getLsbD 2 && !m.flags.pcUpdated then executedByOne depth m else []
    | .error _ _ => []

/-- What a step executes. A step that finds slots nested without end executes
nothing. -/
def executedByStep (c : Cpu β) : List (Executed β) :=
  match executePair maxNesting c.beginStep with
  | .error .endlessSlot _ => []
  | _ => executedByPair maxNesting c.beginStep

/-! ## Every run has its course -/

/-- A program and a log of what it executes. -/
def Logs (one : Exec β Unit) (log : Cpu β → List (Executed β)) : Prop :=
  ∀ c, Course c (log c) (finalState (one c))

/-- Two programs in sequence, the second run where the first completes. -/
theorem Logs.seq {one : Exec β Unit} {log : Cpu β → List (Executed β)} (h : Logs one log) :
    Logs (do one; one) fun c =>
      log c ++
        match one c with
        | .ok _ d => log d
        | .error _ _ => [] := by
  intro c
  have hfirst := h c
  rw [Exec.bind_apply]
  dsimp only
  cases hone : one c with
  | ok _ d =>
      rw [hone] at hfirst
      exact hfirst.trans (h d)
  | error e d =>
      rw [hone] at hfirst
      rwa [List.append_nil]

theorem Logs.slot {one : Exec β Unit} {log : Cpu β → List (Executed β)} (h : Logs one log) :
    Logs (delaySlot one) fun c => executedInSlot log one c.inSlot := by
  intro c
  have hbody : Course c.inSlot (executedInSlot log one c.inSlot)
      (finalState ((if c.flags.dual then (do one; one) else one : Exec β Unit) c.inSlot)) := by
    have hpairing : c.inSlot.flags.dual = c.flags.dual := rfl
    unfold executedInSlot
    rw [hpairing]
    split
    · exact h.seq c.inSlot
    · rw [List.append_nil]
      exact h c.inSlot
  have hin : Course c (executedInSlot log one c.inSlot) _ :=
    .interlude (.place (c.pc + 4#32) c.flags.pcUpdated) hbody
  rw [delaySlot_apply]
  cases hrun : (if c.flags.dual then (do one; one) else one : Exec β Unit) c.inSlot with
  | ok _ d =>
      rw [hrun] at hin
      exact hin.tail (.place c.pc false)
  | error e d =>
      rw [hrun] at hin
      exact hin.tail (.place c.pc false)

namespace SlotPlan

variable (p : SlotPlan)

theorem enter_course (c : Cpu β) : Course c [] (p.enter c) := by
  unfold enter
  split
  · exact .stop c
  · exact .single (.link _ _)

theorem undo_course (c d : Cpu β) : Course d [] (p.undo c d) := by
  unfold undo
  split
  · exact .stop d
  · exact .single (.link _ _)

theorem leave_course (d : Cpu β) : Course d [] (p.leave d) := by
  have hgone : Course d [] (if p.returns then d.returnFromTrap else d) := by
    split
    · exact .single .returnFromTrap
    · exact .stop d
  have hjumped := hgone.tail (.place (p.target.getD d.afterSlot) true)
  unfold leave
  dsimp only
  split
  · exact hjumped
  · exact hjumped.tail (.loop _)

end SlotPlan

theorem executeOne_course (depth : Nat) :
    Logs (executeOne (β := β) depth) (executedByOne depth) := by
  induction depth with
  | zero => exact fun c => .stop c
  | succ depth ih =>
      intro c
      have hfetch : Interlude c (finalState (fetch c.pc c)) := .fetch c.pc
      rw [executeOne, executedByOne, Exec.bind_apply, Exec.get_apply]
      dsimp only
      rw [Exec.bind_apply]
      cases hfetched : fetch c.pc c with
      | error e d =>
          rw [hfetched] at hfetch
          exact .single hfetch
      | ok w d =>
          rw [hfetched] at hfetch
          have hnoted : Course c [] (d.noteIssue c.pc ⟨w⟩) :=
            .interlude hfetch (.single (.noteIssue c.pc ⟨w⟩))
          dsimp only
          rw [Exec.bind_apply, Exec.modify_apply]
          dsimp only
          rw [Exec.bind_apply]
          generalize d.noteIssue c.pc ⟨w⟩ = n at hnoted
          cases hop : (⟨w⟩ : Instruction).op.isDelayedBranch with
          | false =>
              cases hran : execute (delaySlot (executeOne depth)) ⟨w⟩ n with
              | ok _ m => exact hnoted.trans (.executed hop hran (.single .retire))
              | error e m => exact hnoted.tail (.refuse hop hran)
          | true =>
              rw [execute_branch _ n _ hop]
              cases hplan : slotPlan? ⟨w⟩ n with
              | none =>
                  exact (hnoted.tail (.place n.afterSlot true)).tail .retire
              | some p =>
                  have hin := hnoted.trans ((p.enter_course n).trans (ih.slot (p.enter n)))
                  dsimp only [SlotPlan.run]
                  cases hslot : delaySlot (executeOne depth) (p.enter n) with
                  | ok _ m =>
                      rw [hslot] at hin
                      have hout := hin.trans (p.leave_course m)
                      rw [List.append_nil] at hout
                      exact hout.tail .retire
                  | error e m =>
                      rw [hslot] at hin
                      have hout := hin.trans (p.undo_course n m)
                      rwa [List.append_nil] at hout

theorem executePair_course (depth : Nat) :
    Logs (executePair (β := β) depth) (executedByPair depth) := by
  intro c
  have hfirst := executeOne_course depth c
  unfold executedByPair
  rw [executePair_apply]
  cases hone : executeOne depth c with
  | error e m =>
      rw [hone] at hfirst
      rwa [List.append_nil]
  | ok _ m =>
      rw [hone] at hfirst
      dsimp only
      split
      · exact hfirst.trans (executeOne_course depth m)
      · rwa [List.append_nil]

/-- Every step has its course. -/
theorem step_course (c : Cpu β) : Course c (executedByStep c) c.step := by
  have hran : Course c (executedByPair maxNesting c.beginStep)
      (finalState (executePair maxNesting c.beginStep)) :=
    .interlude .beginStep (executePair_course maxNesting c.beginStep)
  have hend := c.step_end
  unfold executedByStep
  generalize c.step = s at hend
  cases hend with
  | completed hrun hquiet =>
      rw [hrun] at hran ⊢
      exact (hran.tail .advanceDual).tail .countStep
  | interrupted hrun haccepts =>
      rw [hrun] at hran ⊢
      exact (((hran.tail .advanceDual).tail .interrupt).tail (.enterTrap _)).tail .countStep
  | faulted hrun =>
      rw [hrun] at hran ⊢
      exact (hran.tail (.enterTrap _)).tail .countStep
  | endless hrun =>
      rw [hrun]
      exact .stop c

/-! ## Runs -/

/-- What the host does to a processor between steps. -/
inductive HostAction (c : Cpu β) : Cpu β → Prop
  | outside {d : Cpu β} (h : Outside c d) : HostAction c d
  | writeControl (reg : ControlReg) (v : Word) : HostAction c (c.writeControl reg v)
  | inspectInstruction (pc : VirtAddr) : HostAction c (c.inspectInstruction pc).2
  | withFloatUnit (u : FloatUnit) : HostAction c (c.withFloatUnit u)

/-- To look at an instruction is to fetch it, and then to take traps off the
record. -/
theorem Cpu.inspectInstruction_state (c : Cpu β) (pc : VirtAddr) :
    ∃ psr, (c.inspectInstruction pc).2 = (finalState (fetch pc c)).setPsr psr := by
  unfold inspectInstruction
  cases fetch pc c with
  | ok w d => exact ⟨_, rfl⟩
  | error e d => exact ⟨_, rfl⟩

/-- Steps from a state on, with actions of the host between them, and the
instructions executed on the way. -/
inductive Session (start : Cpu β) : List (Executed β) → Cpu β → Prop
  | begin : Session start [] start
  | step {log : List (Executed β)} {c : Cpu β} (run : Session start log c) :
      Session start (log ++ executedByStep c) c.step
  | host {log : List (Executed β)} {c d : Cpu β} (run : Session start log c)
      (action : HostAction c d) : Session start log d

/-! ## Passages -/

/-- It is what running the instruction gives. -/
def Executed.Ran (e : Executed β) : Prop := ∃ slot, execute slot e.word e.before = .ok () e.after

/-- A way from one state to another of single events: what the processor does
between instructions, what the host does, and instructions that are executed to
their end. A session is cut where steps end, a passage can be cut anywhere. -/
inductive Passage (start : Cpu β) : List (Executed β) → Cpu β → Prop
  | begin : Passage start [] start
  | interlude {log : List (Executed β)} {c d : Cpu β} (run : Passage start log c)
      (next : Interlude c d) : Passage start log d
  | host {log : List (Executed β)} {c d : Cpu β} (run : Passage start log c)
      (action : HostAction c d) : Passage start log d
  | executed {log : List (Executed β)} {c d : Cpu β} {slot : Exec β Unit} {i : Instruction}
      (run : Passage start log c) (straight : i.op.isDelayedBranch = false)
      (ran : execute slot i c = .ok () d) : Passage start (log ++ [⟨i, c, d⟩]) d

namespace Passage

variable {start c d : Cpu β} {log log' : List (Executed β)}

theorem append (h : Passage start log c) (h' : Course c log' d) :
    Passage start (log ++ log') d := by
  induction h' generalizing log with
  | stop c => rwa [List.append_nil]
  | interlude hfirst _ ih => exact ih (h.interlude hfirst)
  | executed straight ran _ ih =>
      have hrest := ih (h.executed straight ran)
      rwa [List.append_assoc] at hrest

/-- An instruction of the log was executed from where the passage up to it ends. -/
theorem cut (h : Passage start log c) {before rest : List (Executed β)} {e : Executed β}
    (hlog : log = before ++ e :: rest) :
    Passage start before e.before ∧ e.word.op.isDelayedBranch = false ∧ e.Ran := by
  induction h generalizing rest with
  | begin => simp at hlog
  | interlude _ _ ih => exact ih hlog
  | host _ _ ih => exact ih hlog
  | @executed log c d slot i run straight ran ih =>
      rcases List.eq_nil_or_concat rest with rfl | ⟨rest, last, rfl⟩
      · obtain ⟨rfl, hlast⟩ := List.append_inj' hlog rfl
        obtain rfl := List.singleton_inj.1 hlast
        exact ⟨run, straight, slot, ran⟩
      · rw [List.concat_eq_append, ← List.cons_append, ← List.append_assoc] at hlog
        exact ih (List.append_inj' hlog rfl).1

end Passage

theorem Session.passage {start c : Cpu β} {log : List (Executed β)} (h : Session start log c) :
    Passage start log c := by
  induction h with
  | begin => exact .begin
  | step _ ih => exact ih.append (step_course _)
  | host _ haction ih => exact ih.host haction

theorem Session.ran {start c : Cpu β} {log : List (Executed β)} (h : Session start log c)
    {e : Executed β} (he : e ∈ log) : e.Ran := by
  obtain ⟨before, rest, hlog⟩ := List.append_of_mem he
  exact (h.passage.cut hlog).2.2

end I860
