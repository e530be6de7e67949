import I860.Proofs.FaultPlace
import I860.Proofs.HandlerMode
import I860.Proofs.Unseen

/-!
# Interrupts are transparent

An interrupt is accepted at the end of a step, when the pair of the step, and
the slots of its branches, have run to their end. So there is nothing to take
back, and the handler finds what the step would have left without it.

What it would have left is what the same step leaves with the pin down:
instructions do not see the pin (`executePair_blind`), and their run is the
same (`Cpu.step_unpinned`). The handler is told where the program was to go
on, and a handler that does nothing but return brings everything back but the
traces that traps leave. For this nothing of dual mode may be under way, for a
return could only put back what was saved, and what is under way outside of
the snapshot would be seen by the handler. That is what the conditions for
accepting an interrupt are for: behind a step that has not returned from a
trap, in single issue, no compare is pending, no request for dual mode is
noted and none is left over (`Cpu.nothing_under_way`).
-/

namespace I860

variable {β : Type}

/-! ## Instructions that have completed -/

/-- A program that completes has counted each of its words. -/
def CountsWords (one : Exec β Unit) (words : Cpu β → List IssuedWord) : Prop :=
  ∀ c d, one c = .ok () d →
    d.stats.instructions = c.stats.instructions + (words c).length

theorem CountsWords.seq {one : Exec β Unit} {words : Cpu β → List IssuedWord}
    (h : CountsWords one words) :
    CountsWords (do one; one) fun c =>
      words c ++
        match one c with
        | .ok _ d => words d
        | .error _ _ => [] := by
  intro c e hran
  rw [Exec.bind_apply] at hran
  cases hone : one c with
  | ok _ d =>
      rw [hone] at hran
      have hfirst := h c d hone
      have hsecond := h d e hran
      simp only [hone, List.length_append]
      omega
  | error fault d =>
      rw [hone] at hran
      cases hran

theorem CountsWords.slot {one : Exec β Unit} {words : Cpu β → List IssuedWord}
    (h : CountsWords one words) :
    CountsWords (delaySlot one) fun c => wordsOfSlot words one c.inSlot := by
  intro c e hran
  rw [delaySlot_apply] at hran
  split at hran
  · next d hbody =>
      cases hran
      have hpairing : c.inSlot.flags.dual = c.flags.dual := rfl
      dsimp only [wordsOfSlot]
      rw [hpairing]
      split
      · next hdual =>
          rw [if_pos hdual] at hbody
          exact h.seq c.inSlot d hbody
      · next hsingle =>
          rw [if_neg hsingle] at hbody
          rw [List.append_nil]
          exact h c.inSlot d hbody
  · cases hran

theorem SlotPlan.stats_enter (p : SlotPlan) (c : Cpu β) : (p.enter c).stats = c.stats := by
  unfold enter
  split <;> rfl

theorem SlotPlan.stats_leave (p : SlotPlan) (d : Cpu β) : (p.leave d).stats = d.stats := by
  obtain ⟨written, target, returns, loop⟩ := p
  cases returns <;> cases loop <;> rfl

variable [Bus β]

theorem Fetched.stats_eq {c n : Cpu β} {i : Instruction} (h : Fetched c i n) :
    n.stats = c.stats := by
  obtain ⟨d, -, ⟨mmu, icache, board, -, rfl⟩, rfl⟩ := h
  rfl

theorem executeOne_countsWords (depth : Nat) :
    CountsWords (executeOne (β := β) depth) (wordsOfOne depth) := by
  induction depth with
  | zero => exact fun c d hran => by cases hran
  | succ depth ih =>
      intro c e hran
      have hissue := executeOne_issue depth c
      rw [hran] at hissue
      cases hissue with
      | @completed i n d hfetched hplan heffects =>
          rw [wordsOfOne_of_fetched hfetched, hplan, ← hfetched.stats_eq,
            ← Effects.stats_eq heffects]
          rfl
      | skipped hfetched hplan =>
          rw [wordsOfOne_of_fetched hfetched, hplan, ← hfetched.stats_eq]
          rfl
      | @branched i n d p hfetched hplan hslot =>
          have hcounted := ih.slot (p.enter n) d hslot
          rw [p.stats_enter, hfetched.stats_eq] at hcounted
          have hretired : (p.leave d).retire.stats.instructions =
              d.stats.instructions + 1 := by
            rw [← p.stats_leave d]
            rfl
          rw [wordsOfOne_of_fetched hfetched, hplan, hretired, hcounted, List.length_cons,
            Nat.add_assoc]

theorem executePair_countsWords (depth : Nat) :
    CountsWords (executePair (β := β) depth) (wordsOfPair depth) := by
  intro c e hran
  rw [executePair_apply] at hran
  unfold wordsOfPair
  cases hone : executeOne depth c with
  | error fault m =>
      rw [hone] at hran
      cases hran
  | ok _ m =>
      rw [hone] at hran
      have hfirst := executeOne_countsWords depth c m hone
      dsimp only at hran ⊢
      split at hran
      · next hboth =>
          have hsecond := executeOne_countsWords depth m e hran
          rw [if_pos hboth, List.length_append]
          omega
      · next hsingle =>
          cases hran
          rw [if_neg hsingle, List.append_nil]
          exact hfirst

/-! ## Steps that accept an interrupt -/

namespace Cpu

/-- Whether a step accepts an interrupt at its end. -/
def takesInterrupt (c : Cpu β) : Bool :=
  match executePair maxNesting c.beginStep with
  | .ok _ d => d.advanceDual.acceptsInterrupt
  | .error _ _ => false

/-- The processor with its interrupt pin down. What instructions see of the
pin stays as it is. -/
def unpinned (c : Cpu β) : Cpu β := { c with irqLine := false }

/-- The processor with an interrupt on record. -/
def interrupted (d : Cpu β) : Cpu β := d.setPsr { d.control.psr with inr := true }

variable {c d : Cpu β}

theorem step_of_takesInterrupt (h : c.takesInterrupt = true) :
    ∃ d, executePair maxNesting c.beginStep = .ok () d ∧
      d.advanceDual.acceptsInterrupt = true ∧
      c.step = (d.advanceDual.interrupted.enterTrap Trap.ofPin).countStep := by
  unfold takesInterrupt at h
  split at h
  · next d hran =>
      refine ⟨d, hran, h, ?_⟩
      unfold step
      rw [hran]
      dsimp only
      rw [takeInterrupt, if_pos h]
      rfl
  · cases h

/-- Behind the run of a step at whose end an interrupt is accepted. -/
theorem nothing_under_way (hran : executePair maxNesting c.beginStep = .ok () d)
    (haccepts : d.advanceDual.acceptsInterrupt = true) (hstays : c.leavesTrap = false) :
    d.advanceDual.dual = .none ∧ d.advanceDual.comparePending = false ∧
      d.flags.dualCapable = false ∧ d.resumeCapable = false := by
  have hkept : d.flags.dualRestored = false := by
    unfold leavesTrap at hstays
    rwa [hran] at hstays
  have hrequest := c.run_resumeCapable
  rw [hran] at hrequest
  have hnone : d.advanceDual.dual = .none := by
    simp only [acceptsInterrupt, Bool.and_eq_true, beq_iff_eq] at haccepts
    exact haccepts.1.1.2
  have hadvanced : d.advanceDual =
      { d with dual := d.dual.next d.flags.dualCapable, comparePending := false } := by
    rw [advanceDual, hkept]
    rfl
  refine ⟨hnone, by rw [hadvanced], ?_, ?_⟩
  · rw [hadvanced] at hnone
    have hnext : d.dual.next d.flags.dualCapable = .none := hnone
    generalize d.dual = mode at hnext
    cases hcapable : d.flags.dualCapable with
    | false => rfl
    | true =>
        rw [hcapable] at hnext
        cases mode <;> cases hnext
  · have hleft : d.resumeCapable = (d.flags.dualRestored && c.saved.capable) := hrequest
    rw [hleft, hkept, Bool.false_and]

/-- With its pin down, a step leaves what its run leaves, and counts otherwise
at most. -/
theorem step_unpinned (hran : executePair maxNesting c.beginStep = .ok () d) :
    c.unpinned.step = d.advanceDual.countedAs c.unpinned.step := by
  have hsame : c.unpinned.beginStep.seen = c.beginStep.seen := rfl
  have hends := (executePair_blind maxNesting).alike hsame
  rw [hran] at hends
  obtain ⟨_, d', _, hran', hd', hseen⟩ | ⟨_, _, _, -, hd', -⟩ := asSeen_cases hends
  · cases hd'
    have hhost := Moves.sameHost (executePair_moves maxNesting c.beginStep)
    have hhost' := Moves.sameHost (executePair_moves maxNesting c.unpinned.beginStep)
    rw [hran] at hhost
    rw [hran'] at hhost'
    have hpin : d'.advanceDual.irqLine = false := d'.irqLine_advanceDual.trans hhost'.irqLine
    have hrefused : d'.advanceDual.acceptsInterrupt = false := by
      rw [acceptsInterrupt, hpin, Bool.and_false, Bool.false_and]
    have hstep : c.unpinned.step = d'.advanceDual.countStep := by
      unfold step
      rw [hran']
      dsimp only
      rw [takeInterrupt, hrefused]
      rfl
    have hleft : d'.advanceDual.countStep.seen = d.advanceDual.seen := by
      show d'.advanceDual.seen = d.advanceDual.seen
      rw [seen_advanceDual, seen_advanceDual, hseen]
    have hlisting : d'.advanceDual.listing = d.advanceDual.listing := by
      rw [listing_advanceDual, listing_advanceDual]
      exact hhost'.listing.trans hhost.listing.symm
    rw [hstep]
    exact eq_of_seen hleft hlisting
  · cases hd'

end Cpu

/-! ## The handler -/

attribute [ext] Cpu

/-- A handler that was entered in `a` and has returned in `r` has done nothing
else. Its fetches may have filled caches and set accessed bits. -/
structure OnlyReturns (a r : Cpu β) : Prop where
  regs : r.regs = a.regs
  adder : r.adder = a.adder
  multiplier : r.multiplier = a.multiplier
  loads : r.loads = a.loads
  graphics : r.graphics = a.graphics
  order : r.order = a.order
  fpu : r.fpu = a.fpu
  listing : r.listing = a.listing
  params : r.params = a.params
  control :
    r.control =
      { a.control with
        psr :=
          { a.control.psr with
            u := r.control.psr.u
            im := r.control.psr.im
            it := r.control.psr.it
            inr := r.control.psr.inr
            iat := r.control.psr.iat
            dat := r.control.psr.dat
            ft := r.control.psr.ft }
        epsr := { a.control.epsr with int := r.control.epsr.int } }
  memory : MarksAccessed a.order a.control.dirbase.dtb a.board r.board

theorem OnlyReturns.pu {a r : Cpu β} (h : OnlyReturns a r) :
    r.control.psr.pu = a.control.psr.pu := by
  rw [h.control]

theorem OnlyReturns.pim {a r : Cpu β} (h : OnlyReturns a r) :
    r.control.psr.pim = a.control.psr.pim := by
  rw [h.control]

/-- The state `r` is `u`, but for the traces of a trap: in the status
registers, in the fault instruction register and in what was saved; and but
for the level of the pin, the counts, and what the caches and the page tables
have learned. -/
structure SameButTraces (u r : Cpu β) : Prop where
  rest :
    r =
      { u with
        control :=
          { u.control with
            fir := r.control.fir
            psr :=
              { u.control.psr with
                pu := r.control.psr.pu
                pim := r.control.psr.pim
                dim := r.control.psr.dim
                ds := r.control.psr.ds
                it := r.control.psr.it
                inr := r.control.psr.inr
                iat := r.control.psr.iat
                dat := r.control.psr.dat
                ft := r.control.psr.ft }
            epsr := { u.control.epsr with int := r.control.epsr.int } }
        saved := r.saved
        faultAddrHeld := r.faultAddrHeld
        irqLine := r.irqLine
        stats := r.stats
        flags := r.flags
        icache := r.icache
        mmu := r.mmu
        board := r.board }
  memory : MarksAccessed u.order u.control.dirbase.dtb u.board r.board

/-- Where a handler that only returns has brought back what was saved behind
the run of a step, the processor is as it was there but for traces. -/
theorem SameButTraces.of_returned {d u r : Cpu β} (hu : u = d.countedAs u)
    (hrestored : Restored d.interrupted r) (hresume : r.resumeCapable = d.resumeCapable)
    (honly : OnlyReturns (d.interrupted.enterTrap Trap.ofPin).countStep r) :
    SameButTraces u r := by
  have hcontrol := honly.control
  have hpsr := congrArg ControlFile.psr hcontrol
  have hfir : r.control.fir = d.pc := congrArg ControlFile.fir hcontrol
  have hpu : r.control.psr.pu = d.control.psr.u := honly.pu
  have hpim : r.control.psr.pim = d.control.psr.im := honly.pim
  have hdim : r.control.psr.dim = false := congrArg Psr.dim hpsr
  have hds : r.control.psr.ds = false := congrArg Psr.ds hpsr
  have hprivilege : r.control.psr.u = d.control.psr.u := hrestored.u
  have henable : r.control.psr.im = d.control.psr.im := hrestored.im
  have hrest : r.control =
      { d.control with
        fir := r.control.fir
        psr :=
          { d.control.psr with
            pu := r.control.psr.pu
            pim := r.control.psr.pim
            dim := r.control.psr.dim
            ds := r.control.psr.ds
            it := r.control.psr.it
            inr := r.control.psr.inr
            iat := r.control.psr.iat
            dat := r.control.psr.dat
            ft := r.control.psr.ft }
        epsr := { d.control.epsr with int := r.control.epsr.int } } := by
    rw [hfir, hpu, hpim, hdim, hds]
    rw [hprivilege, henable] at hcontrol
    exact hcontrol
  refine ⟨?_, ?_⟩
  · rw [hu]
    exact Cpu.ext honly.regs hrest hrestored.pc honly.adder honly.multiplier honly.loads
      honly.graphics hrestored.dual hrestored.compareCode hrestored.comparePending rfl rfl rfl
      rfl rfl rfl hresume rfl honly.order honly.fpu honly.listing honly.params rfl
  · rw [hu]
    exact honly.memory

/-- An interrupt splits nothing and is transparent. The step from `b` accepts
an interrupt and has not returned from a trap. Its pair has run to its end,
slots included: there is no place where it fails, and it has counted every
word that it has issued. The handler starts in single issue, with nothing of
dual mode saved, and is told where the same step with the pin down would have
gone. If it runs to `h`, without another trap or interrupt, returns there in
its next step and has done nothing else, then the processor is as that step
would have left it, but for traces. -/
theorem interrupt_is_transparent {b : Cpu β} (haccepts : b.takesInterrupt = true)
    (hstays : b.leavesTrap = false) :
    (∃ d, executePair maxNesting b.beginStep = .ok () d ∧
      d.stats.instructions =
        b.stats.instructions + (wordsOfPair maxNesting b.beginStep).length ∧
      ∀ branches m kind e, ¬FaultPlace b branches m kind e) ∧
    (b.step.pc = trapVector ∧ b.step.control.psr.onRecord .interrupt = true ∧
      b.step.dual = .none ∧ b.step.saved.mode = .none ∧ b.step.saved.capable = false ∧
      b.step.saved.comparePending = false ∧ b.step.control.fir = b.unpinned.step.pc) ∧
    ∀ h s i, HandlerRun b.step h → ReturningStep h s i → OnlyReturns b.step h.step →
      SameButTraces b.unpinned.step h.step := by
  obtain ⟨d, hran, hsampled, hstep⟩ := Cpu.step_of_takesInterrupt haccepts
  obtain ⟨hnone, hpending, hcapable, hrequest⟩ := Cpu.nothing_under_way hran hsampled hstays
  have hflags : d.advanceDual.flags = d.flags := d.flags_advanceDual
  have hunpinned := Cpu.step_unpinned hran
  refine ⟨⟨d, hran, executePair_countsWords maxNesting _ d hran, ?_⟩, ?_, ?_⟩
  · intro branches m kind e hplace
    rw [hplace.executePair_eq] at hran
    cases hran
  · have hgone : b.unpinned.step.pc = d.advanceDual.pc := by
      rw [hunpinned]
      rfl
    rw [hstep, hgone]
    exact ⟨rfl, rfl, rfl, hnone, (congrArg StepFlags.dualCapable hflags).trans hcapable,
      hpending, rfl⟩
  · intro h s i hrun hreturn honly
    have hplace : h.control.fir = d.advanceDual.interrupted.pc :=
      hrun.fir_of_entry hstep rfl
    have hrestored :=
      restored_of_entry hstep hrun (hplace ▸ hreturn.returnsTo) honly.pu honly.pim
    have hresume : h.step.resumeCapable = d.advanceDual.resumeCapable := by
      have hback : h.step.resumeCapable = d.advanceDual.flags.dualCapable := hrestored.request
      rw [hback, hflags, hcapable, Cpu.resumeCapable_advanceDual, hrequest]
    rw [hstep] at honly
    exact .of_returned hunpinned hrestored hresume honly

/-- A processor that has enabled interrupts and is about to load a register
while its pin is up. -/
def pinnedLoad : Cpu OpenMemory :=
  (Cpu.before 0x1000#32
    [(0x1000#32, [0xe4040010#32, 0x38202000#32, 0xe4071010#32, 0xa0000000#32]),
      (0xffffff00#32, [0x40003800#32, 0xa0000000#32])]).step.setIrqLine true

/-- Its trap handler, with the pin down again, which returns to the address in
that register. -/
def pinnedLoad.handler : Cpu OpenMemory := pinnedLoad.step.setIrqLine false

theorem interrupt_is_transparent_of_load :
    pinnedLoad.takesInterrupt = true ∧ pinnedLoad.step.control.fir = 0x1010#32 ∧
      SameButTraces pinnedLoad.unpinned.step pinnedLoad.handler.step ∧
      pinnedLoad.handler.step.pc = 0x1010#32 := by
  have haccepts : pinnedLoad.takesInterrupt = true := by decide +kernel
  have hrun : HandlerRun pinnedLoad.step pinnedLoad.handler := .outside .start (.pin false)
  have hreturn : ReturningStep pinnedLoad.handler pinnedLoad.handler.beginStep ⟨0x40003800#32⟩ :=
    ⟨.first, by decide +kernel, by decide +kernel, by decide +kernel, by decide +kernel,
      by decide +kernel⟩
  have hunlisted : ∀ {c : Cpu OpenMemory}, c.listing.isNone = true → c.listing = none :=
    fun h => Option.isNone_iff_eq_none.1 h
  have hboard : pinnedLoad.handler.step.board = pinnedLoad.step.board := by decide +kernel
  have honly : OnlyReturns pinnedLoad.step pinnedLoad.handler.step := {
    regs := by decide +kernel
    adder := by decide +kernel
    multiplier := by decide +kernel
    loads := by decide +kernel
    graphics := by decide +kernel
    order := by decide +kernel
    fpu := by decide +kernel
    listing := (hunlisted (by decide +kernel)).trans (hunlisted (by decide +kernel)).symm
    params := by decide +kernel
    control := by decide +kernel
    memory := by
      rw [hboard]
      exact .refl }
  obtain ⟨-, ⟨-, -, -, -, -, -, hfir⟩, hback⟩ :=
    interrupt_is_transparent haccepts (by decide +kernel)
  have hgone : pinnedLoad.unpinned.step.pc = 0x1010#32 := by decide +kernel
  exact ⟨haccepts, hfir.trans hgone, hback _ _ _ hrun hreturn honly, by decide +kernel⟩

end I860
