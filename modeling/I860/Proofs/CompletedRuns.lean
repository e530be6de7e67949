import I860.Proofs.Course

/-!
# Runs that complete

The course of a step has interludes for everything that can happen in it, and
so for traps. A run that completes knows no traps, and `Passing` lists what is
left: what it does between the instructions that it executes. `Completed` is a
way made of these and of the instructions, and carries the same log as the
course does.

A return from a trap handler is the one interlude that a run may be asked not
to have made. It leaves a flag behind that nothing takes back before the next
step (`Completed.dualRestored`), so a run that ends without the flag has made
no return, and none of its parts has.
-/

namespace I860

variable {β : Type} [Bus β]

/-- What a run that completes does between instructions. -/
inductive Passing (c : Cpu β) : Cpu β → Prop
  | fetch {pc : VirtAddr} {w : Word} {d : Cpu β} (ran : I860.fetch pc c = .ok w d) : Passing c d
  | noteIssue (pc : VirtAddr) (i : Instruction) : Passing c (c.noteIssue pc i)
  | place (pc : Word) (updated : Bool) :
      Passing c { c with pc := pc, flags := { c.flags with pcUpdated := updated } }
  | link (r : RegNum) (v : Word) : Passing c (c.writeInt r v)
  | loop (lcc : Bool) : Passing c (c.setPsr { c.control.psr with lcc := lcc })
  | returnFromTrap : Passing c c.returnFromTrap
  | retire : Passing c c.retire

/-- A way from one state to another without traps, with the instructions
executed on it. -/
inductive Completed : Cpu β → List (Executed β) → Cpu β → Prop
  | stop (c : Cpu β) : Completed c [] c
  | passing {c d e : Cpu β} {log : List (Executed β)} (first : Passing c d)
      (rest : Completed d log e) : Completed c log e
  | executed {c d e : Cpu β} {log : List (Executed β)} {slot : Exec β Unit} {i : Instruction}
      (straight : i.op.isDelayedBranch = false) (ran : execute slot i c = .ok () d)
      (rest : Completed d log e) : Completed c (⟨i, c, d⟩ :: log) e

namespace Completed

variable {c d e : Cpu β} {log log' : List (Executed β)}

theorem single (h : Passing c d) : Completed c [] d := .passing h (.stop d)

theorem trans (h : Completed c log d) (h' : Completed d log' e) :
    Completed c (log ++ log') e := by
  induction h with
  | stop c => exact h'
  | passing hfirst _ ih => exact .passing hfirst (ih h')
  | executed hstraight hran _ ih => exact .executed hstraight hran (ih h')

theorem tail (h : Completed c log d) (h' : Passing d e) : Completed c log e := by
  have happend := h.trans (.single h')
  rwa [List.append_nil] at happend

end Completed

/-! ## Every completed run -/

/-- Where a program completes, the log is what it has executed. -/
def LogsCompletion (one : Exec β Unit) (log : Cpu β → List (Executed β)) : Prop :=
  ∀ c d, one c = .ok () d → Completed c (log c) d

theorem LogsCompletion.slot {one : Exec β Unit} {log : Cpu β → List (Executed β)}
    (h : LogsCompletion one log) :
    LogsCompletion (delaySlot one) fun c => executedInSlot log one c.inSlot := by
  intro c d hran
  have hin : Passing c c.inSlot := .place (c.pc + 4#32) c.flags.pcUpdated
  have hpairing : c.inSlot.flags.dual = c.flags.dual := rfl
  rw [delaySlot_apply] at hran
  unfold executedInSlot
  dsimp only
  rw [hpairing]
  split at hran
  · next e hbody =>
      cases hran
      refine .passing hin (.tail ?_ (.place c.pc false))
      split at hbody
      · next hdual =>
          rw [Exec.bind_apply] at hbody
          split at hbody
          · next m hfirst =>
              rw [if_pos hdual, hfirst]
              exact (h _ _ hfirst).trans (h _ _ hbody)
          · cases hbody
      · next hsingle =>
          rw [if_neg hsingle, List.append_nil]
          exact h _ _ hbody
  · cases hran

namespace SlotPlan

variable (p : SlotPlan)

theorem enter_completed (c : Cpu β) : Completed c [] (p.enter c) := by
  unfold enter
  split
  · exact .stop c
  · exact .single (.link _ _)

theorem leave_completed (d : Cpu β) : Completed d [] (p.leave d) := by
  have hgone : Completed d [] (if p.returns then d.returnFromTrap else d) := by
    split
    · exact .single .returnFromTrap
    · exact .stop d
  have hjumped := hgone.tail (.place (p.target.getD d.afterSlot) true)
  unfold leave
  dsimp only
  split
  · exact hjumped
  · exact hjumped.tail (.loop _)

end SlotPlan

theorem executeOne_completed (depth : Nat) :
    LogsCompletion (executeOne (β := β) depth) (executedByOne depth) := by
  induction depth with
  | zero =>
      intro c d hran
      cases hran
  | succ depth ih =>
      intro c d hran
      rw [executeOne, Exec.bind_apply, Exec.get_apply] at hran
      dsimp only at hran
      rw [Exec.bind_apply] at hran
      rw [executedByOne]
      cases hfetched : fetch c.pc c with
      | error e m =>
          rw [hfetched] at hran
          cases hran
      | ok w m =>
          rw [hfetched] at hran
          dsimp only at hran ⊢
          rw [Exec.bind_apply, Exec.modify_apply] at hran
          dsimp only at hran
          rw [Exec.bind_apply] at hran
          have hnoted : Completed c [] (m.noteIssue c.pc ⟨w⟩) :=
            .passing (.fetch hfetched) (.single (.noteIssue c.pc ⟨w⟩))
          generalize m.noteIssue c.pc ⟨w⟩ = n at hnoted hran ⊢
          cases hop : (⟨w⟩ : Instruction).op.isDelayedBranch with
          | false =>
              rw [if_neg Bool.false_ne_true]
              cases hexecuted : execute (delaySlot (executeOne depth)) ⟨w⟩ n with
              | ok _ e =>
                  rw [hexecuted] at hran
                  cases hran
                  exact hnoted.trans (.executed hop hexecuted (.single .retire))
              | error fault e =>
                  rw [hexecuted] at hran
                  cases hran
          | true =>
              rw [if_pos rfl]
              rw [execute_branch _ n _ hop] at hran
              cases hplan : slotPlan? ⟨w⟩ n with
              | none =>
                  rw [hplan] at hran
                  cases hran
                  exact (hnoted.tail (.place n.afterSlot true)).tail .retire
              | some p =>
                  rw [hplan] at hran
                  dsimp only [SlotPlan.run] at hran
                  cases hslot : delaySlot (executeOne depth) (p.enter n) with
                  | ok _ e =>
                      rw [hslot] at hran
                      cases hran
                      have hin := hnoted.trans
                        ((p.enter_completed n).trans (ih.slot _ _ hslot))
                      have hout := hin.trans (p.leave_completed e)
                      rw [List.append_nil] at hout
                      exact hout.tail .retire
                  | error fault e =>
                      rw [hslot] at hran
                      cases hran

theorem executePair_completed (depth : Nat) :
    LogsCompletion (executePair (β := β) depth) (executedByPair depth) := by
  intro c d hran
  rw [executePair_apply] at hran
  split at hran
  · next m hfirst =>
      have hone := executeOne_completed depth c m hfirst
      have hlog : executedByPair depth c = executedByOne depth c ++
          if !c.pc.getLsbD 2 && !m.flags.pcUpdated then executedByOne depth m else [] := by
        simp only [executedByPair, hfirst]
      rw [hlog]
      split at hran
      · next hgo =>
          rw [if_pos hgo]
          exact hone.trans (executeOne_completed depth m d hran)
      · next hstop =>
          cases hran
          rw [if_neg hstop, List.append_nil]
          exact hone
  · cases hran

/-! ## Returns from trap handlers -/

theorem Passing.dualRestored {c d : Cpu β} (h : Passing c d)
    (hc : c.flags.dualRestored = true) : d.flags.dualRestored = true := by
  cases h with
  | fetch hran => rwa [(lookedUp_of_fetch hran).effect.sameMode.dualRestored]
  | noteIssue pc i => exact hc
  | place pc updated => exact hc
  | link r v => exact hc
  | loop lcc => exact hc
  | returnFromTrap => rfl
  | retire => exact hc

/-- The note that a handler was left stays until the step is over. -/
theorem Completed.dualRestored {c d : Cpu β} {log : List (Executed β)} (h : Completed c log d)
    (hc : c.flags.dualRestored = true) : d.flags.dualRestored = true := by
  induction h with
  | stop c => exact hc
  | passing hfirst _ ih => exact ih (hfirst.dualRestored hc)
  | @executed c d e log slot i hstraight hran _ ih =>
      have heffects := (execute_ends i c slot hstraight).completed hran
      exact ih (by rwa [heffects.sameMode.dualRestored])

end I860
