import I860.Proofs.ControlBits
import I860.Proofs.Steps

/-!
# Staying in user mode

A step from user mode that does not enter the trap handler ought to end in
user mode. It does, unless it leaves a trap handler with PU clear. User code
can bring that about by itself: the trap status bits are open to it, and an
indirect branch that finds one of them set takes PU for the mode to go to.
`planted_trap_bit_drops_user_mode` is a program that does.

What holds is `user_mode_after_step`. While PU is set there is no way out of
user mode, by whatever instructions, and no way to clear PU, so the two bits
stay set over any number of steps (`user_mode_kept_by_steps`). In single issue
a step that leaves a handler with PU clear does always end in supervisor mode,
since nothing runs behind the return.
-/

namespace I860

variable {β : Type}

/-! ## Moves from user mode -/

/-- The processor is in user mode, and PU is `pu`. -/
def InUser (pu : Bool) (c : Cpu β) : Prop :=
  c.control.psr.u = true ∧ c.control.psr.pu = pu

theorem Effect.inUser {pu : Bool} {c d : Cpu β} (h : Effect c d) (huser : InUser pu c) :
    InUser pu d := by
  cases h with
  | memory mmu icache board => exact huser
  | compute hframe =>
      have hu : d.frame.control.psr.u = c.frame.control.psr.u := by rw [hframe]
      have hpu : d.frame.control.psr.pu = c.frame.control.psr.pu := by rw [hframe]
      exact ⟨Eq.trans hu huser.1, Eq.trans hpu huser.2⟩
  | jump target => exact huser
  | readControl reg =>
      cases reg with
      | fir =>
          dsimp only [Cpu.readControl]
          split <;> exact huser
      | _ => exact huser
  | writeControl reg v =>
      obtain ⟨control, mmu, icache, fpu, order, heq, -, hpsr⟩ := c.writeControl_cases reg v
      rw [heq]
      unfold InUser
      dsimp only
      rw [hpsr]
      split
      · rw [huser.1, Psr.write_user]
        exact huser
      · exact huser

theorem Effects.inUser {pu : Bool} {c d : Cpu β} (h : Effects c d) (hc : InUser pu c) :
    InUser pu d := by
  induction h with
  | refl => exact hc
  | tail _ heffect ih => exact heffect.inUser ih

/-- From user mode with PU as it is, a run stays there, or it has left a trap
handler with PU clear. -/
def InUserOrDropped (pu : Bool) (c : Cpu β) : Prop :=
  InUser pu c ∨ pu = false ∧ c.flags.dualRestored = true

theorem Move.inUserOrDropped {pu : Bool} {c d : Cpu β} (h : Move c d)
    (hc : InUserOrDropped pu c) : InUserOrDropped pu d := by
  obtain huser | ⟨hpu, hdropped⟩ := hc
  · cases h with
    | effect h => exact .inl (h.inUser huser)
    | place pc updated => exact .inl huser
    | noteIssue pc i => exact .inl huser
    | retire => exact .inl huser
    | fault kind =>
        left
        cases kind <;> exact huser
    | returnFromTrap =>
        cases pu with
        | true => exact .inl ⟨huser.2, huser.2⟩
        | false => exact .inr ⟨rfl, rfl⟩
  · refine .inr ⟨hpu, ?_⟩
    cases h with
    | effect h => rw [h.sameMode.dualRestored, hdropped]
    | place pc updated => exact hdropped
    | noteIssue pc i => exact hdropped
    | retire => exact hdropped
    | fault kind => exact hdropped
    | returnFromTrap => rfl

/-! ## Single issue -/

/-- The run has left no trap handler and is in user mode. -/
def StillInUser (pu : Bool) (c : Cpu β) : Prop :=
  InUser pu c ∧ c.flags.dualRestored = false

/-- The run has left a trap handler and is in the mode that PU says. -/
def InModeOfPu (pu : Bool) (c : Cpu β) : Prop :=
  c.control.psr.u = pu ∧ c.control.psr.pu = pu ∧ c.flags.dualRestored = true

theorem Effects.stillInUser {pu : Bool} {c d : Cpu β} (h : Effects c d)
    (hc : StillInUser pu c) : StillInUser pu d :=
  ⟨h.inUser hc.1, h.sameMode.dualRestored.trans hc.2⟩

theorem SlotPlan.leave_mode {pu : Bool} {c : Cpu β} (p : SlotPlan)
    (h : StillInUser pu c ∨ InModeOfPu pu c) :
    StillInUser pu (p.leave c) ∨ InModeOfPu pu (p.leave c) := by
  obtain ⟨written, target, returns, loop⟩ := p
  cases returns with
  | false => cases loop <;> exact h
  | true =>
      right
      have hpu : c.control.psr.pu = pu := by
        obtain hc | hc := h
        · exact hc.1.2
        · exact hc.2.1
      cases loop <;> exact ⟨hpu, hpu, rfl⟩

variable [Bus β]

theorem Fetched.stillInUser {pu : Bool} {c n : Cpu β} {i : Instruction}
    (h : Fetched c i n) (hc : StillInUser pu c) : StillInUser pu n := by
  obtain ⟨d, -, ⟨mmu, icache, board, -, rfl⟩, rfl⟩ := h
  exact hc

/-- In single issue a run that leaves a trap handler does nothing after that:
what is still to come behind the return are the jumps of outer branches. -/
theorem executeOne_leaves_last {pu : Bool} {depth : Nat} {c d : Cpu β}
    (hsingle : c.flags.dual = false) (hc : StillInUser pu c)
    (h : executeOne depth c = .ok () d) :
    StillInUser pu d ∨ InModeOfPu pu d ∧ d.flags.pcUpdated = true := by
  induction depth generalizing c d with
  | zero => cases h
  | succ depth ih =>
      have hissue := executeOne_issue depth c
      rw [h] at hissue
      cases hissue with
      | completed hfetched _ heffects =>
          exact .inl (heffects.stillInUser (hfetched.stillInUser hc))
      | skipped hfetched _ => exact .inl (hfetched.stillInUser hc)
      | @branched i n e p hfetched _ hran =>
          have hdual : (p.enter n).flags.dual = false := by
            rw [hfetched.pairing_enter, hsingle]
          have hn : StillInUser pu (p.enter n).inSlot := by
            have hstart := hfetched.stillInUser hc
            obtain ⟨written, target, returns, loop⟩ := p
            cases written <;> exact hstart
          obtain ⟨e', hone, rfl⟩ := eq_ok_of_delaySlot hdual hran
          have hslot : StillInUser pu (e'.backAt (p.enter n).pc) ∨
              InModeOfPu pu (e'.backAt (p.enter n).pc) := by
            obtain hin | ⟨hin, -⟩ := ih (c := (p.enter n).inSlot) hdual hn hone
            · exact .inl hin
            · exact .inr hin
          obtain hin | hin := p.leave_mode hslot
          · exact .inl hin
          · refine .inr ⟨hin, ?_⟩
            obtain ⟨written, target, returns, loop⟩ := p
            cases loop <;> rfl

theorem executePair_leaves_last {pu : Bool} {depth : Nat} {c d : Cpu β}
    (hsingle : c.flags.dual = false) (hc : StillInUser pu c)
    (h : executePair depth c = .ok () d) : StillInUser pu d ∨ InModeOfPu pu d := by
  rw [executePair_apply] at h
  split at h
  · next m hone =>
      have hfirst := executeOne_leaves_last hsingle hc hone
      split at h
      · next hgo =>
          obtain hm | ⟨-, hupdated⟩ := hfirst
          · have hdual : m.flags.dual = false := by
              rw [executeOne_pairing hone, hsingle]
            obtain hd | ⟨hd, -⟩ := executeOne_leaves_last hdual hm h
            · exact .inl hd
            · exact .inr hd
          · rw [hupdated] at hgo
            simp at hgo
      · cases h
        obtain hm | ⟨hm, -⟩ := hfirst
        · exact .inl hm
        · exact .inr hm
  · cases h

/-! ## Steps -/

theorem Cpu.step_inUserOrDropped {c : Cpu β} (huser : c.control.psr.u = true)
    (hstay : c.entersTrap = false) :
    InUser c.control.psr.pu c.step ∨
      c.control.psr.pu = false ∧ c.leavesTrap = true := by
  have hstart : InUserOrDropped c.control.psr.pu c.beginStep := .inl ⟨huser, rfl⟩
  have hrun := Moves.preserves Move.inUserOrDropped
    (executePair_moves maxNesting c.beginStep) hstart
  obtain ⟨d, hran, hstep⟩ | ⟨-, hstep⟩ := step_of_stays hstay
  · rw [hran] at hrun
    rw [leavesTrap, hran, hstep]
    obtain hin | hdropped := hrun
    · left
      have hcontrol : d.advanceDual.countStep.control = d.control := d.control_advanceDual
      rw [InUser, hcontrol]
      exact hin
    · exact .inr hdropped
  · rw [hstep]
    exact .inl ⟨huser, rfl⟩

theorem Cpu.step_inModeOfPu {c : Cpu β} (huser : c.control.psr.u = true)
    (hstay : c.entersTrap = false) (hsingle : c.dual = .none)
    (hleaves : c.leavesTrap = true) : c.step.control.psr.u = c.control.psr.pu := by
  have hdual : c.beginStep.flags.dual = false := by
    simp [beginStep, hsingle, DualMode.isDual]
  have hstart : StillInUser c.control.psr.pu c.beginStep := ⟨⟨huser, rfl⟩, rfl⟩
  obtain ⟨d, hran, hstep⟩ | ⟨⟨d, hran⟩, -⟩ := step_of_stays hstay
  · have hreturned : d.flags.dualRestored = true := by
      rw [leavesTrap, hran] at hleaves
      exact hleaves
    obtain hin | hin := executePair_leaves_last hdual hstart hran
    · rw [hin.2] at hreturned
      cases hreturned
    · have hcontrol : d.advanceDual.countStep.control = d.control := d.control_advanceDual
      rw [hstep, hcontrol]
      exact hin.1
  · rw [leavesTrap, hran] at hleaves
    cases hleaves

/-- A step from user mode that does not enter the trap handler ends in user
mode if PU is set or if it leaves no handler. In single issue it ends there in
no other case. -/
theorem user_mode_after_step {c : Cpu β} (huser : c.control.psr.u = true)
    (hstay : c.entersTrap = false) :
    (c.control.psr.pu = true ∨ c.leavesTrap = false →
        c.step.control.psr.u = true ∧ c.step.control.psr.pu = c.control.psr.pu) ∧
      (c.dual = .none →
        (c.step.control.psr.u = true ↔
          c.control.psr.pu = true ∨ c.leavesTrap = false)) := by
  have hkept : c.control.psr.pu = true ∨ c.leavesTrap = false →
      InUser c.control.psr.pu c.step := by
    intro hcase
    obtain hin | ⟨hpu, hleaves⟩ := Cpu.step_inUserOrDropped huser hstay
    · exact hin
    · obtain h | h := hcase
      · rw [hpu] at h
        cases h
      · rw [hleaves] at h
        cases h
  refine ⟨hkept, fun hsingle => ⟨fun hu => ?_, fun hcase => (hkept hcase).1⟩⟩
  cases hleaves : c.leavesTrap with
  | false => exact .inr rfl
  | true =>
      rw [Cpu.step_inModeOfPu huser hstay hsingle hleaves] at hu
      exact .inl hu

/-- `st.c` from user mode plants a trap status bit, and `bri` returns from a
trap that never was. -/
def plantedTrapBit : Cpu OpenMemory :=
  .before 0x1000#32
    [(0x1000#32,
      [0xe4040040#32, 0x38202000#32, 0xe4050100#32, 0x38202800#32, 0x40002000#32,
        0xe0000000#32])]

/-- The step that plants the bit stays in user mode. -/
theorem user_mode_after_planting :
    plantedTrapBit.step.control.psr.u = true ∧ plantedTrapBit.step.entersTrap = false ∧
      plantedTrapBit.step.step.control.psr.u = true := by
  have huser : plantedTrapBit.step.control.psr.u = true := by decide +kernel
  have hstay : plantedTrapBit.step.entersTrap = false := by decide +kernel
  have hleaves : plantedTrapBit.step.leavesTrap = false := by decide +kernel
  exact ⟨huser, hstay, ((user_mode_after_step huser hstay).1 (.inr hleaves)).1⟩

/-- The step after that is out of it, and has entered no trap. -/
theorem planted_trap_bit_drops_user_mode :
    plantedTrapBit.step.step.control.psr.u = true ∧
      plantedTrapBit.step.step.entersTrap = false ∧
      plantedTrapBit.step.step.step.control.psr.u = false := by
  decide +kernel

/-- With PU set, as after the return from a trap in user mode, user code has
no way to the supervisor but by a trap. -/
theorem user_mode_kept_by_steps (n : Nat) {c : Cpu β} (huser : InUser true c)
    (hstay : ∀ k < n, (Cpu.steps k c).entersTrap = false) :
    InUser true (Cpu.steps n c) := by
  induction n generalizing c with
  | zero => exact huser
  | succ n ih =>
      have hfirst : InUser true c.step := by
        obtain hin | ⟨hpu, -⟩ :=
          Cpu.step_inUserOrDropped huser.1 (hstay 0 (Nat.succ_pos n))
        · rwa [huser.2] at hin
        · rw [huser.2] at hpu
          cases hpu
      exact ih hfirst fun k hk => hstay (k + 1) (Nat.succ_lt_succ hk)

end I860
