import I860.Proofs.PreciseFaults

/-!
# Traps are transparent

A step may fault at either half of its pair. The handler does what it likes
and ends with an indirect branch to the address of the fault; the next step
then finishes the interrupted pair as if there had been no trap. That takes
three phases to see.

*The fault.* The pair is what is left of it from the faulting instruction on
(`IssuesAt.executePair_eq`), and of that instruction nothing has happened.
Entering the handler saves how far dual mode and the pending compare are, and
whether the low half has asked for dual mode.

*The handler.* No instruction writes what the trap has saved or the fault
instruction register, whatever else it does (`HandlerRun.keeps_saved`).

*The return.* It puts back what was saved. The request of the low half waits
for the next step, which therefore begins with the notes that the interrupted
step had taken (`Resumes.step_eq`). One note may be missing, that an
instruction in a high half was issued, but then this is the next thing to be
noted.

`trap_is_transparent` puts them together.
-/

namespace I860

theorem Psr.clearTraps_setTrap {r : Psr} (h : r.anyTrap = false) (kind : TrapKind) :
    (r.setTrap kind).clearTraps = r := by
  obtain ⟨br, bw, cc, lcc, im, pim, u, pu, it, inr, iat, dat, ft, ds, dim, knf, sc, ps, pm⟩ := r
  simp only [anyTrap, Bool.or_eq_false_iff] at h
  obtain ⟨⟨⟨⟨rfl, rfl⟩, rfl⟩, rfl⟩, rfl⟩ := h
  cases kind <;> rfl

variable {β : Type}

/-! ## What a step keeps to itself -/

/-- The note that an instruction in a high half was issued, or was not. -/
def Cpu.notingHigh (c : Cpu β) (high : Bool) : Cpu β :=
  { c with flags := { c.flags with highHalf := high } }

/-- The step that faulted in `f`, gone on with from there: how far the step and
dual mode are is as in `f`, and everything else is as a handler has left it
in `r`. -/
def Cpu.goneOnWith (f r : Cpu β) : Cpu β :=
  { r with
    pc := f.pc
    dual := f.dual
    compareCode := f.compareCode
    comparePending := f.comparePending
    flags := f.flags
    resumeCapable := f.resumeCapable }

/-- What the step that faulted in `f` had noted, and how it is found again in
the state `r` in which the next step starts. -/
structure Resumes (f r : Cpu β) : Prop where
  pc : r.pc = f.pc
  dual : r.dual = f.dual
  compareCode : r.compareCode = f.compareCode
  comparePending : r.comparePending = f.comparePending
  straight : f.flags.pcUpdated = false
  unrestored : f.flags.dualRestored = false
  noRequest : f.resumeCapable = false
  pairing : f.flags.dual = r.dual.isDual
  request : r.resumeCapable = f.flags.dualCapable
  high : f.flags.highHalf = true → r.pc.getLsbD 2 = true

namespace Resumes

variable {f r : Cpu β}

/-- The next step begins as the interrupted step had got to, but that it has
not noted yet whether an instruction in a high half was issued. -/
theorem goneOnWith_eq (h : Resumes f r) :
    f.goneOnWith r = r.beginStep.notingHigh f.flags.highHalf := by
  have hflags : f.flags =
      { StepFlags.initial with
        dualCapable := r.resumeCapable
        highHalf := f.flags.highHalf
        dual := r.dual.isDual } := by
    rw [h.request, ← h.pairing]
    have hstraight := h.straight
    have hunrestored := h.unrestored
    generalize f.flags = flags at hstraight hunrestored ⊢
    obtain ⟨updated, capable, high, dual, restored⟩ := flags
    cases hstraight
    cases hunrestored
    rfl
  rw [Cpu.goneOnWith, ← h.pc, ← h.dual, ← h.compareCode, ← h.comparePending,
    h.noRequest, hflags]
  rfl

end Resumes

variable [Bus β]

/-! ## The places where a step issues -/

/-- In the step from `b` an instruction issues outside of delay slots, in the
state `m`. -/
inductive IssuesAt (b : Cpu β) : Cpu β → Prop
  | first : IssuesAt b b.beginStep
  | second {m : Cpu β} (low : b.pc.getLsbD 2 = false)
      (ran : executeOne maxNesting b.beginStep = .ok () m)
      (straight : m.flags.pcUpdated = false) : IssuesAt b m

theorem executeOne_maxNesting_issue (c : Cpu β) :
    Issue (delaySlot (executeOne (maxNesting - 1))) c (executeOne maxNesting c) := by
  have hsucc : maxNesting = (maxNesting - 1) + 1 := by decide
  have hissue := executeOne_issue (maxNesting - 1) c
  rw [← hsucc] at hissue
  exact hissue

theorem executeOne_straight {c m : Cpu β} (h : executeOne maxNesting c = .ok () m)
    (hstraight : m.flags.pcUpdated = false) :
    m.pc = c.pc + 4#32 ∧ ∃ i n, Fetched c i n ∧ SameMode n m := by
  have hissue := executeOne_maxNesting_issue c
  rw [h] at hissue
  cases hissue with
  | @completed i n d hfetched _ heffects =>
      have hkept : d.flags.pcUpdated = false := hstraight
      have hn : n.pc = c.pc := by
        obtain ⟨e, -, ⟨mmu, icache, board, -, rfl⟩, rfl⟩ := hfetched
        rfl
      have hpc := (heffects.straight hkept).2
      refine ⟨?_, i, n, hfetched, heffects.sameMode.trans ⟨rfl, rfl, rfl, rfl, rfl⟩⟩
      simp only [Cpu.retire, hkept, hpc, hn, Bool.false_eq_true, if_false]
  | skipped _ _ => cases hstraight
  | @branched i n d p _ _ _ =>
      have hupdated : (p.leave d).flags.pcUpdated = false := hstraight
      rw [p.pcUpdated_leave] at hupdated
      cases hupdated

/-- What a step has noted when an instruction of its pair is about to issue. -/
structure MidStep (m : Cpu β) : Prop where
  straight : m.flags.pcUpdated = false
  noHigh : m.flags.highHalf = false
  unrestored : m.flags.dualRestored = false
  noRequest : m.resumeCapable = false
  pairing : m.flags.dual = m.dual.isDual

omit [Bus β] in
theorem MidStep.flags_eq {c : Cpu β} (h : MidStep c) :
    c.flags =
      { StepFlags.initial with
        dualCapable := c.flags.dualCapable
        dual := c.flags.dual } := by
  have hstraight := h.straight
  have hnoHigh := h.noHigh
  have hunrestored := h.unrestored
  generalize c.flags = flags at hstraight hnoHigh hunrestored ⊢
  obtain ⟨updated, capable, high, dual, restored⟩ := flags
  cases hstraight
  cases hnoHigh
  cases hunrestored
  rfl

namespace IssuesAt

variable {b m : Cpu β}

theorem midStep (h : IssuesAt b m) : MidStep m := by
  cases h with
  | first => exact ⟨rfl, rfl, rfl, rfl, rfl⟩
  | second hlow hran hstraight =>
      obtain ⟨-, i, n, ⟨d, -, ⟨mmu, icache, board, -, rfl⟩, rfl⟩, hsame⟩ :=
        executeOne_straight hran hstraight
      have hhigh : m.flags.highHalf = (false || b.pc.getLsbD 2) := hsame.highHalf
      have hdual : m.dual = b.dual := hsame.dual
      have hpairing : m.flags.dual = b.dual.isDual := hsame.pairing
      refine ⟨hstraight, ?_, hsame.dualRestored, hsame.resumeCapable, ?_⟩
      · rw [hhigh, hlow]
        rfl
      · rw [hpairing, hdual]

theorem sameContext (h : IssuesAt b m) : SameContext b.beginStep m := by
  cases h with
  | first => exact .refl _
  | second _ hran _ =>
      have hmoves := executeOne_moves maxNesting b.beginStep
      rw [hran] at hmoves
      exact Moves.sameContext hmoves

theorem high_of_low {a : Word} (h : a.getLsbD 2 = false) : (a + 4#32).getLsbD 2 = true := by
  simp only [BitVec.getLsbD, Nat.testBit_eq_decide_div_mod_eq, BitVec.toNat_add,
    decide_eq_true_eq, decide_eq_false_iff_not] at h ⊢
  have hfour : (4#32).toNat = 4 := rfl
  omega

/-- The pair from the place on is what is left of the pair. -/
theorem executePair_eq (h : IssuesAt b m) :
    executePair maxNesting b.beginStep = executePair maxNesting m := by
  cases h with
  | first => rfl
  | second hlow hran hstraight =>
      have hhigh : m.pc.getLsbD 2 = true := by
        rw [(executeOne_straight hran hstraight).1]
        exact high_of_low hlow
      have hlow' : b.beginStep.pc.getLsbD 2 = false := hlow
      rw [executePair_apply, executePair_apply, hran]
      dsimp only
      rw [hlow', hhigh, hstraight]
      cases executeOne maxNesting m <;> rfl

/-- Every trap that the run of a step ends with was raised at one of its
places. -/
theorem exists_of_fault {t : Trap} {f : Cpu β}
    (h : executePair maxNesting b.beginStep = .error (.trap t) f) :
    ∃ m, IssuesAt b m ∧ executeOne maxNesting m = .error (.trap t) f := by
  rw [executePair_apply] at h
  split at h
  · next m hran =>
      split at h
      · next hgo =>
          simp only [Bool.and_eq_true, Bool.not_eq_true'] at hgo
          exact ⟨m, .second hgo.1 hran hgo.2, h⟩
      · cases h
  · next e m hran =>
      cases h
      exact ⟨b.beginStep, .first, hran⟩

end IssuesAt

/-! ## The fault -/

/-- A fault outside of delay slots at an instruction that was to issue in `m`:
nothing but the record of the trap, and what the caches and the page tables
have learned. The instruction has been noted, unless it was not fetched. -/
structure FaultAt (m f : Cpu β) (t : Trap) : Prop where
  frame : FaultOnly t.kind m f
  flags : f.flags = m.flags ∨ ∃ i, f.flags = (m.noteIssue m.pc i).flags

theorem faultAt_of_executeOne {m f : Cpu β} {t : Trap}
    (h : executeOne maxNesting m = .error (.trap t) f) (hplain : t.inDelaySlot = false) :
    FaultAt m f t := by
  have hissue := executeOne_maxNesting_issue m
  rw [h] at hissue
  cases hissue with
  | unfetched kind hlooked _ =>
      refine ⟨.of_lookedUp hlooked, .inl ?_⟩
      obtain ⟨mmu, icache, board, -, rfl⟩ := hlooked
      rfl
  | @refused i n d kind hfetched _ hlooked =>
      refine ⟨.after_fetch hfetched (.of_lookedUp hlooked), .inr ⟨i, ?_⟩⟩
      obtain ⟨e, -, ⟨mmu, icache, board, -, rfl⟩, rfl⟩ := hfetched
      obtain ⟨mmu', icache', board', -, rfl⟩ := hlooked
      rfl
  | slotFault _ _ hran =>
      rw [inDelaySlot_of_delaySlot hran] at hplain
      cases hplain

/-! ## Going on with a step -/

theorem translate_flags (vaddr : VirtAddr) (access : AccessKind) (c : Cpu β)
    (flags : StepFlags) :
    translate vaddr access { c with flags := flags } =
      match translate vaddr access c with
      | .ok a d => .ok a { d with flags := flags }
      | .error e d => .error e { d with flags := flags } := by
  unfold translate
  rw [Exec.bind_apply, Exec.bind_apply, Exec.get_apply, Exec.get_apply]
  dsimp only
  generalize c.mmu.translate c.order c.board c.control.dirbase vaddr access
    ⟨c.control.psr.u, c.control.epsr.wp⟩ = r
  obtain ⟨result, mmu, board⟩ := r
  cases result <;> rfl

/-- Fetching takes no notice of the flags of the step. -/
theorem fetch_flags (pc : VirtAddr) (c : Cpu β) (flags : StepFlags) :
    fetch pc { c with flags := flags } =
      match fetch pc c with
      | .ok w d => .ok w { d with flags := flags }
      | .error e d => .error e { d with flags := flags } := by
  unfold fetch
  rw [Exec.bind_apply, Exec.bind_apply, Exec.get_apply, Exec.get_apply]
  dsimp only
  rw [Exec.bind_apply, Exec.bind_apply, Exec.set_apply, Exec.set_apply]
  dsimp only
  cases (c.icache.lookup pc).1 with
  | some pair => rfl
  | none =>
      dsimp only
      rw [Exec.bind_apply, Exec.bind_apply, fetchPair, Exec.bind_apply, Exec.bind_apply]
      have htranslate := translate_flags (InstructionCache.pairAddr pc) .fetch
        { c with icache := (c.icache.lookup pc).2 } flags
      dsimp only at htranslate
      rw [htranslate]
      cases translate (InstructionCache.pairAddr pc) .fetch
        { c with icache := (c.icache.lookup pc).2 } <;> rfl

/-- From an instruction in a high half on it makes no difference whether the
step has noted such an instruction before, but to its notes if the instruction
cannot be fetched. -/
theorem executeOne_notingHigh {x : Cpu β} (hhigh : x.pc.getLsbD 2 = true) (depth : Nat) :
    executeOne (depth + 1) (x.notingHigh true) = executeOne (depth + 1) x ∨
      ∃ e d, d.flags = x.flags ∧ executeOne (depth + 1) x = .error e d ∧
        executeOne (depth + 1) (x.notingHigh true) = .error e (d.notingHigh true) := by
  have hy : fetch (x.notingHigh true).pc (x.notingHigh true) =
      match fetch x.pc x with
      | .ok w d => .ok w { d with flags := (x.notingHigh true).flags }
      | .error e d => .error e { d with flags := (x.notingHigh true).flags } :=
    fetch_flags x.pc x (x.notingHigh true).flags
  have hends := fetch_ends x x.pc
  rw [executeOne, Exec.bind_apply, Exec.bind_apply, Exec.get_apply, Exec.get_apply]
  dsimp only
  rw [Exec.bind_apply, Exec.bind_apply, hy]
  cases hfetch : fetch x.pc x with
  | ok w d =>
      rw [hfetch] at hends
      have hd : d.flags = x.flags := by
        cases hends with
        | ok h =>
            obtain ⟨mmu, icache, board, -, rfl⟩ := h
            rfl
      left
      have hnote : ({ d with flags := (x.notingHigh true).flags } : Cpu β).noteIssue
          (x.notingHigh true).pc ⟨w⟩ = d.noteIssue x.pc ⟨w⟩ := by
        simp only [Cpu.noteIssue, Cpu.notingHigh, hd, hhigh, Bool.or_true]
      dsimp only
      rw [Exec.bind_apply, Exec.bind_apply, Exec.modify_apply, Exec.modify_apply, hnote]
  | error e d =>
      rw [hfetch] at hends
      have hd : d.flags = x.flags := by
        cases hends with
        | refused kind h =>
            obtain ⟨mmu, icache, board, -, rfl⟩ := h
            rfl
      refine .inr ⟨e, d, hd, rfl, ?_⟩
      simp only [Cpu.notingHigh, hd]

theorem executePair_of_high {c : Cpu β} (hhigh : c.pc.getLsbD 2 = true) (depth : Nat) :
    executePair depth c = executeOne depth c := by
  rw [executePair_apply, hhigh]
  cases executeOne depth c <;> rfl

/-- What a step makes of the end of its run; nothing, if slots turn out to be
nested without end. -/
def closeStep : EStateM.Result Fault (Cpu β) Unit → Option (Cpu β)
  | .ok _ d => some d.advanceDual.takeInterrupt.countStep
  | .error (.trap t) d => some (d.enterTrap t).countStep
  | .error .endlessSlot _ => none

theorem Cpu.step_of_closeStep {c e : Cpu β}
    (h : closeStep (executePair maxNesting c.beginStep) = some e) : c.step = e := by
  unfold step
  split
  · next d hran =>
      rw [hran] at h
      exact Option.some.inj h
  · next t d hran =>
      rw [hran] at h
      exact Option.some.inj h
  · next d hran =>
      rw [hran] at h
      cases h

/-- The next step does what is left of the interrupted one. -/
theorem Resumes.step_eq {f r : Cpu β} (h : Resumes f r) {e : Cpu β}
    (hclose : closeStep (executePair maxNesting (f.goneOnWith r)) = some e) :
    r.step = { e with flags := r.step.flags } := by
  rw [h.goneOnWith_eq] at hclose
  cases hhigh : f.flags.highHalf with
  | false =>
      rw [hhigh] at hclose
      have hsame : r.step = e := Cpu.step_of_closeStep hclose
      rw [hsame]
  | true =>
      rw [hhigh] at hclose
      have hodd : r.beginStep.pc.getLsbD 2 = true := h.high hhigh
      have hsucc : maxNesting = (maxNesting - 1) + 1 := by decide
      have hodd' : (r.beginStep.notingHigh true).pc.getLsbD 2 = true := hodd
      rw [executePair_of_high hodd'] at hclose
      obtain hrun | ⟨fault, d, hd, hrun, hrun'⟩ :=
        executeOne_notingHigh hodd (maxNesting - 1)
      · rw [← hsucc] at hrun
        rw [hrun, ← executePair_of_high hodd] at hclose
        have hsame : r.step = e := Cpu.step_of_closeStep hclose
        rw [hsame]
      · rw [← hsucc] at hrun hrun'
        rw [hrun'] at hclose
        cases fault with
        | endlessSlot => cases hclose
        | trap t =>
            have hstep : r.step = (d.enterTrap t).countStep := by
              apply Cpu.step_of_closeStep
              rw [executePair_of_high hodd, hrun]
              rfl
            cases hclose
            rw [hstep]
            rfl

/-! ## The handler -/

/-- The run of a trap handler: steps that do not enter the handler again, and
what happens between steps. -/
inductive HandlerRun (a : Cpu β) : Cpu β → Prop
  | start : HandlerRun a a
  | step {c : Cpu β} (h : HandlerRun a c) (stays : c.entersTrap = false) : HandlerRun a c.step
  | outside {c d : Cpu β} (h : HandlerRun a c) (o : Outside c d) : HandlerRun a d

theorem Cpu.step_keeps_saved {c : Cpu β} (hstays : c.entersTrap = false) :
    c.step.saved = c.saved ∧ c.step.control.fir = c.control.fir := by
  have hrun := Moves.sameContext (executePair_moves maxNesting c.beginStep)
  obtain ⟨d, hran, hstep⟩ | ⟨-, hstep⟩ := step_of_stays hstays
  · rw [hran] at hrun
    have hcontrol : d.advanceDual.countStep.control = d.control := d.control_advanceDual
    rw [hstep, hcontrol]
    exact ⟨d.saved_advanceDual.trans hrun.saved, hrun.fir⟩
  · rw [hstep]
    exact ⟨rfl, rfl⟩

theorem HandlerRun.keeps_saved {a c : Cpu β} (h : HandlerRun a c) :
    c.saved = a.saved ∧ c.control.fir = a.control.fir := by
  induction h with
  | start => exact ⟨rfl, rfl⟩
  | step _ hstays ih =>
      obtain ⟨hsaved, hfir⟩ := Cpu.step_keeps_saved hstays
      exact ⟨hsaved.trans ih.1, hfir.trans ih.2⟩
  | outside _ houtside ih =>
      have hsame := Between.sameMode (.single houtside)
      exact ⟨hsame.saved.trans ih.1, hsame.fir.trans ih.2⟩

/-! ## The return -/

/-- The instruction at the program counter, if it can be fetched. -/
def Cpu.instruction? (c : Cpu β) : Option Instruction :=
  match fetch c.pc c with
  | .ok w _ => some ⟨w⟩
  | .error _ _ => none

theorem Fetched.instruction?_eq {c n : Cpu β} {i : Instruction} (h : Fetched c i n) :
    c.instruction? = some i := by
  obtain ⟨d, hfetch, -, -⟩ := h
  rw [Cpu.instruction?, hfetch]

theorem slotPlan?_bri {i : Instruction} {c n : Cpu β} (hbri : i.op = .bri)
    (hfetched : Fetched c i n) :
    slotPlan? i n =
      some { SlotPlan.toward (c.readInt i.src1) with returns := c.control.psr.anyTrap } := by
  obtain ⟨d, -, ⟨mmu, icache, board, -, rfl⟩, rfl⟩ := hfetched
  unfold slotPlan?
  rw [hbri]
  rfl

/-- `bri` with a trap on record ends with the return, whatever is in its
slot. -/
theorem executeOne_bri {s q : Cpu β} {i : Instruction} (hword : s.instruction? = some i)
    (hbri : i.op = .bri) (htrap : s.control.psr.anyTrap = true)
    (h : executeOne maxNesting s = .ok () q) :
    ∃ d, SameContext s d ∧ q = (d.returnFromTrap.jump (s.readInt i.src1)).retire := by
  have hplanned : ∀ {j n}, Fetched s j n → slotPlan? j n =
      some { SlotPlan.toward (s.readInt i.src1) with returns := true } := by
    intro j n hfetched
    have hj : some j = some i := hfetched.instruction?_eq.symm.trans hword
    cases hj
    rw [slotPlan?_bri hbri hfetched, htrap]
  have hissue := executeOne_maxNesting_issue s
  rw [h] at hissue
  cases hissue with
  | completed hfetched hplan _ =>
      rw [hplanned hfetched] at hplan
      cases hplan
  | skipped hfetched hplan =>
      rw [hplanned hfetched] at hplan
      cases hplan
  | @branched j n d p hfetched hplan hran =>
      rw [hplanned hfetched] at hplan
      cases hplan
      have hslot := (executeOne_moves (β := β) (maxNesting - 1)).delaySlot
        (SlotPlan.enter { SlotPlan.toward (s.readInt i.src1) with returns := true } n)
      rw [hran] at hslot
      exact ⟨d, Moves.sameContext (hfetched.moves.trans hslot), rfl⟩

/-- A step that ends with a return to `target`: `bri` issues outside of delay
slots while a trap is on record, and no trap or interrupt comes up. -/
structure ReturnsTo (h s : Cpu β) (i : Instruction) (target : Word) : Prop where
  issues : IssuesAt h s
  word : s.instruction? = some i
  bri : i.op = .bri
  toward : s.readInt i.src1 = target
  onRecord : s.control.psr.anyTrap = true
  completes : h.completes = true

theorem ReturnsTo.step_eq {h s : Cpu β} {i : Instruction} {target : Word}
    (hr : ReturnsTo h s i target) :
    ∃ d, SameContext h.beginStep d ∧
      h.step = (d.returnFromTrap.jump target).retire.countStep := by
  obtain ⟨q, hran, hstep⟩ := Cpu.step_of_completes hr.completes
  have hcontext := hr.issues.sameContext
  rw [hr.issues.executePair_eq, executePair_apply] at hran
  split at hran
  · next m hone =>
      obtain ⟨d, hd, rfl⟩ := executeOne_bri hr.word hr.bri hr.onRecord hone
      have hupdated : (d.returnFromTrap.jump (s.readInt i.src1)).retire.flags.pcUpdated =
          true := rfl
      rw [hupdated, Bool.not_true, Bool.and_false] at hran
      cases hran
      refine ⟨d, hcontext.trans hd, ?_⟩
      rw [hstep, hr.toward]
      rfl
  · cases hran

/-- A step that ends with a return to the place of the fault: `bri` issues
outside of delay slots, with the fault instruction register for its target,
while a trap is on record, and no trap or interrupt comes up. -/
structure ReturningStep (h s : Cpu β) (i : Instruction) : Prop where
  issues : IssuesAt h s
  word : s.instruction? = some i
  bri : i.op = .bri
  toFault : s.readInt i.src1 = s.control.fir
  onRecord : s.control.psr.anyTrap = true
  completes : h.completes = true

theorem ReturningStep.returnsTo {h s : Cpu β} {i : Instruction} (hr : ReturningStep h s i) :
    ReturnsTo h s i h.control.fir :=
  ⟨hr.issues, hr.word, hr.bri, hr.toFault.trans hr.issues.sameContext.fir, hr.onRecord,
    hr.completes⟩

/-! ## All three phases -/

/-- A step that faults outside of delay slots, in the state `f`, at the
instruction that was to issue in `m`. No trap was on record before. -/
structure FaultingStep (b m f : Cpu β) (t : Trap) : Prop where
  issues : IssuesAt b m
  ran : executeOne maxNesting m = .error (.trap t) f
  plain : t.inDelaySlot = false
  clear : m.control.psr.anyTrap = false

namespace FaultingStep

variable {b m f : Cpu β} {t : Trap}

theorem executePair_eq (h : FaultingStep b m f t) :
    executePair maxNesting b.beginStep = .error (.trap t) f := by
  rw [h.issues.executePair_eq, executePair_apply, h.ran]

theorem step_eq (h : FaultingStep b m f t) : b.step = (f.enterTrap t).countStep := by
  unfold Cpu.step
  rw [h.executePair_eq]

theorem faultAt (h : FaultingStep b m f t) : FaultAt m f t :=
  faultAt_of_executeOne h.ran h.plain

theorem resumes (h : FaultingStep b m f t) {r : Cpu β} (hpc : r.pc = f.pc)
    (hdual : r.dual = f.dual) (hcode : r.compareCode = f.compareCode)
    (hpending : r.comparePending = f.comparePending)
    (hrequest : r.resumeCapable = f.flags.dualCapable) : Resumes f r := by
  have hmid := h.issues.midStep
  obtain ⟨⟨mmu, icache, flags, board, -, rfl⟩, hflags⟩ := h.faultAt
  have hnoted : flags.pcUpdated = false ∧ flags.dualRestored = false ∧
      flags.dual = m.dual.isDual ∧ (flags.highHalf = true → m.pc.getLsbD 2 = true) := by
    obtain hsame | ⟨i, hnoted⟩ := hflags
    · have hflags' : flags = m.flags := hsame
      rw [hflags', hmid.noHigh]
      exact ⟨hmid.straight, hmid.unrestored, hmid.pairing, fun hhigh => by cases hhigh⟩
    · have hflags' : flags = (m.noteIssue m.pc i).flags := hnoted
      rw [hflags']
      refine ⟨rfl, hmid.unrestored, hmid.pairing, fun hhigh => ?_⟩
      have hnote : (m.flags.highHalf || m.pc.getLsbD 2) = true := hhigh
      rw [hmid.noHigh, Bool.false_or] at hnote
      exact hnote
  obtain ⟨hstraight, hunrestored, hpairing, hhigh⟩ := hnoted
  refine ⟨hpc, hdual, hcode, hpending, hstraight, hunrestored, hmid.noRequest, ?_,
    hrequest, ?_⟩
  · rw [hdual]
    exact hpairing
  · rw [hpc]
    exact hhigh

end FaultingStep

/-- What a return from the trap in `f` puts back. -/
structure Restored (f r : Cpu β) : Prop where
  pc : r.pc = f.pc
  noTrap : r.control.psr.anyTrap = false
  u : r.control.psr.u = f.control.psr.u
  im : r.control.psr.im = f.control.psr.im
  dual : r.dual = f.dual
  compareCode : r.compareCode = f.compareCode
  comparePending : r.comparePending = f.comparePending
  request : r.resumeCapable = f.flags.dualCapable

/-- A handler that was entered in `a` after the trap in `f` runs to `h` and
returns in its next step to where the program counter was in `f`, with PU and
PIM as it has found them. -/
theorem restored_of_entry {a f h s : Cpu β} {t : Trap} {i : Instruction}
    (hentry : a = (f.enterTrap t).countStep) (hrun : HandlerRun a h)
    (hreturn : ReturnsTo h s i f.pc) (hpu : h.step.control.psr.pu = a.control.psr.pu)
    (hpim : h.step.control.psr.pim = a.control.psr.pim) : Restored f h.step := by
  have hsaved := hrun.keeps_saved.1
  rw [hentry] at hsaved hpu hpim
  obtain ⟨d, hd, hstep⟩ := hreturn.step_eq
  have hdsaved : d.saved = ⟨f.dual, f.compareCode, f.comparePending, f.flags.dualCapable⟩ :=
    hd.saved.trans hsaved
  rw [hstep] at hpu hpim ⊢
  exact {
    pc := rfl
    noTrap := rfl
    u := hpu
    im := hpim
    dual := congrArg DualSnapshot.mode hdsaved
    compareCode := congrArg DualSnapshot.compareCode hdsaved
    comparePending := congrArg DualSnapshot.comparePending hdsaved
    request := congrArg DualSnapshot.capable hdsaved }

/-- The handler is told where the program counter was, unless the trap comes
from a delay slot. -/
theorem HandlerRun.fir_of_entry {a f h : Cpu β} {t : Trap} (hrun : HandlerRun a h)
    (hentry : a = (f.enterTrap t).countStep) (hplain : t.inDelaySlot = false) :
    h.control.fir = f.pc := by
  rw [hrun.keeps_saved.2, hentry]
  simp only [Cpu.countStep, Cpu.enterTrap, hplain, Bool.false_eq_true, if_false]

theorem restored_of_return {b m f h s : Cpu β} {t : Trap} {i : Instruction}
    (hfault : FaultingStep b m f t) (hrun : HandlerRun b.step h)
    (hreturn : ReturningStep h s i)
    (hpu : h.step.control.psr.pu = b.step.control.psr.pu)
    (hpim : h.step.control.psr.pim = b.step.control.psr.pim) : Restored f h.step := by
  have hplace := hrun.fir_of_entry hfault.step_eq hfault.plain
  exact restored_of_entry hfault.step_eq hrun (hplace ▸ hreturn.returnsTo) hpu hpim

/-- A trap is transparent to the program that it interrupts. The step from `b`
faults in `f`, at the instruction that was to issue in `m`; the handler runs to
`h` and returns in its next step, with PU and PIM as it has found them. Of the
faulting instruction nothing has happened, and what the step had before it is
all of the pair but what is left from `m` on. After the return the program
counter is at that instruction again, in the mode of before. The next step,
from any state `r` that follows, is then what the interrupted step makes of
the rest of the pair. -/
theorem trap_is_transparent {b m f h s : Cpu β} {t : Trap} {i : Instruction}
    (hfault : FaultingStep b m f t) (hrun : HandlerRun b.step h)
    (hreturn : ReturningStep h s i)
    (hpu : h.step.control.psr.pu = b.step.control.psr.pu)
    (hpim : h.step.control.psr.pim = b.step.control.psr.pim) :
    (b.step = (f.enterTrap t).countStep ∧
      executePair maxNesting b.beginStep = executePair maxNesting m ∧
      FaultOnly t.kind m f ∧ f.control.psr.clearTraps = m.control.psr) ∧
    (h.step.pc = m.pc ∧ h.step.control.psr.anyTrap = false ∧
      h.step.control.psr.u = f.control.psr.u ∧
      h.step.control.psr.im = f.control.psr.im ∧
      h.step.dual = f.dual ∧ h.step.compareCode = f.compareCode ∧
      h.step.comparePending = f.comparePending) ∧
    ∀ r e, Between h.step r →
      closeStep (executePair maxNesting (f.goneOnWith r)) = some e →
      r.step = { e with flags := r.step.flags } := by
  have hrestored := restored_of_return hfault hrun hreturn hpu hpim
  have hmarked : f.pc = m.pc ∧ f.control.psr.clearTraps = m.control.psr := by
    obtain ⟨⟨mmu, icache, flags, board, -, rfl⟩, -⟩ := hfault.faultAt
    exact ⟨rfl, Psr.clearTraps_setTrap hfault.clear t.kind⟩
  refine ⟨⟨hfault.step_eq, hfault.issues.executePair_eq, hfault.faultAt.frame, hmarked.2⟩,
    ⟨hrestored.pc.trans hmarked.1, hrestored.noTrap, hrestored.u, hrestored.im,
      hrestored.dual, hrestored.compareCode, hrestored.comparePending⟩, ?_⟩
  intro r e hbetween hclose
  have hsame := Between.sameMode hbetween
  obtain ⟨hpc, hcode, hpending⟩ := Between.pc_eq hbetween
  have hresumes : Resumes f r :=
    hfault.resumes (hpc.trans hrestored.pc) (hsame.dual.trans hrestored.dual)
      (hcode.trans hrestored.compareCode) (hpending.trans hrestored.comparePending)
      (hsame.resumeCapable.trans hrestored.request)
  exact hresumes.step_eq hclose

/-- A program about to execute a sum that overflows beside `intovr`. The trap
handler makes a sum that does not overflow, and returns. -/
def overflowTrap : Cpu OpenMemory :=
  (Cpu.before 0x1000#32
    [(0x1000#32, [0xec047fff#32, 0xe484ffff#32, 0x90852000#32, 0x4c000004#32]),
      (0xffffff00#32, [0x30070000#32, 0x90000000#32, 0x40003800#32, 0xe0000000#32])]).step

/-- Between the sum and `intovr`. -/
def overflowTrap.between : Cpu OpenMemory :=
  finalState (executeOne maxNesting overflowTrap.beginStep)

/-- Where `intovr` has faulted. -/
def overflowTrap.fault : Cpu OpenMemory :=
  finalState (executeOne maxNesting overflowTrap.between)

/-- The return is to `intovr`, and the next step executes it and not the sum
once more. -/
theorem trap_is_transparent_of_overflow :
    overflowTrap.step.step.step.pc = 0x100c#32 ∧
      ∃ e, closeStep (executePair maxNesting
          (overflowTrap.fault.goneOnWith overflowTrap.step.step.step)) = some e ∧
        overflowTrap.step.step.step.step =
          { e with flags := overflowTrap.step.step.step.step.flags } ∧
        e.pc = 0x1010#32 := by
  have hsum : executeOne maxNesting overflowTrap.beginStep = .ok () overflowTrap.between :=
    eq_ok_of_ranThrough (by decide +kernel)
  have htrap : executeOne maxNesting overflowTrap.between =
      .error (.trap (.ofKind .instruction)) overflowTrap.fault :=
    eq_error_of_trapOf (by decide +kernel)
  have hfault : FaultingStep overflowTrap overflowTrap.between overflowTrap.fault
      (.ofKind .instruction) :=
    ⟨.second (by decide +kernel) hsum (by decide +kernel), htrap, rfl, by decide +kernel⟩
  have hrun : HandlerRun overflowTrap.step overflowTrap.step.step :=
    .step .start (by decide +kernel)
  have hreturn : ReturningStep overflowTrap.step.step overflowTrap.step.step.beginStep
      ⟨0x40003800#32⟩ :=
    ⟨.first, by decide +kernel, by decide +kernel, by decide +kernel, by decide +kernel,
      by decide +kernel⟩
  obtain ⟨-, ⟨hpc, -⟩, hnext⟩ :=
    trap_is_transparent hfault hrun hreturn (by decide +kernel) (by decide +kernel)
  have hcloses : ((closeStep (executePair maxNesting
      (overflowTrap.fault.goneOnWith overflowTrap.step.step.step))).map (·.pc)) =
      some 0x1010#32 := by
    decide +kernel
  obtain ⟨e, he, hepc⟩ := Option.map_eq_some_iff.1 hcloses
  have hplace : overflowTrap.between.pc = 0x100c#32 := by decide +kernel
  exact ⟨hpc.trans hplace, e, he, hnext _ e .refl he, hepc⟩

end I860
