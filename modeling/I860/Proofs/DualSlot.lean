import I860.Proofs.FaultPlace

/-!
# Faults in a slot of two words

In dual mode the slot of a delayed branch holds two words, and the handler of
a fault at either of them is told of the branch and not of the word. To go on,
it has to start the branch over. That repeats nothing if nothing of the slot
has happened, as it is in single issue, but a fault at the second word finds
the first word done.

What a fault leaves of the data of a program is what all the words before it
have made of them, but that each branch on the way out puts back the register
that it has written itself (`FaultPlace.data_step`). For a fault at the second
word this is the work of the first (`fault_in_second_word`). What has become
of the loop condition, of the pipes or of memory stays, and when the branch is
started over the first word is run on top of that.
-/

namespace I860

variable {β : Type}

/-- What a program computes with, apart from memory: the data registers, the
pipes and the two condition codes. -/
structure ProgramData where
  regs : RegisterFile
  adder : Pipe
  multiplier : Pipe
  loads : Pipe
  graphics : Pipe
  cc : Bool
  lcc : Bool
  deriving DecidableEq

namespace Cpu

def data (c : Cpu β) : ProgramData :=
  ⟨c.regs, c.adder, c.multiplier, c.loads, c.graphics, c.control.psr.cc, c.control.psr.lcc⟩

/-- A step that starts over what was begun in `c`. How far dual mode is was
saved from `e`, and everything else is as a handler has left it in `r`. -/
def startedOver (c e r : Cpu β) : Cpu β :=
  { r with
    pc := c.pc
    dual := e.dual
    compareCode := e.compareCode
    comparePending := e.comparePending
    flags := { c.flags with dualCapable := e.flags.dualCapable, dual := e.dual.isDual }
    resumeCapable := c.resumeCapable }

end Cpu

/-! ## What branches take back -/

theorem PendingBranch.abandon_congr (branch : PendingBranch β) {d e : Cpu β}
    (hdata : d.data = e.data) : (branch.abandon d).data = (branch.abandon e).data := by
  simp only [Cpu.data, ProgramData.mk.injEq] at hdata
  obtain ⟨hregs, hadder, hmultiplier, hloads, hgraphics, hcc, hlcc⟩ := hdata
  unfold abandon SlotPlan.undo
  split <;>
    simp [Cpu.data, Cpu.backAt, Cpu.writeInt, hregs, hadder, hmultiplier, hloads, hgraphics, hcc,
      hlcc]

theorem unwind_congr (branches : List (PendingBranch β)) {d e : Cpu β}
    (hdata : d.data = e.data) : (unwind branches d).data = (unwind branches e).data := by
  induction branches with
  | nil => exact hdata
  | cons branch inner ih => exact branch.abandon_congr ih

theorem PendingBranch.board_abandon (branch : PendingBranch β) (d : Cpu β) :
    (branch.abandon d).board = d.board := by
  unfold abandon SlotPlan.undo
  split <;> rfl

theorem board_unwind (branches : List (PendingBranch β)) (d : Cpu β) :
    (unwind branches d).board = d.board := by
  induction branches with
  | nil => rfl
  | cons branch inner ih => exact (branch.board_abandon _).trans ih

theorem PendingBranch.dual_abandon (branch : PendingBranch β) (d : Cpu β) :
    (branch.abandon d).dual = d.dual ∧ (branch.abandon d).compareCode = d.compareCode ∧
      (branch.abandon d).comparePending = d.comparePending ∧
      (branch.abandon d).flags.dualCapable = d.flags.dualCapable := by
  unfold abandon SlotPlan.undo
  split <;> exact ⟨rfl, rfl, rfl, rfl⟩

/-- What a branch does before its slot it takes back completely. -/
theorem PendingBranch.abandon_slotStart (branch : PendingBranch β) :
    (branch.abandon branch.slotStart).data = branch.noted.data := by
  obtain ⟨noted, ⟨written, target, returns, loop⟩⟩ := branch
  cases written with
  | none => rfl
  | some w =>
      obtain ⟨r, v⟩ := w
      simp only [Cpu.data, abandon, slotStart, SlotPlan.undo, SlotPlan.enter, Cpu.backAt,
        Cpu.inSlot, Cpu.writeInt, Cpu.readInt, IntRegs.write_back]

variable [Bus β]

/-- Between `n` and `s` nothing was done: the data are the same, memory is but
for accessed bits, and dual mode is where it was. -/
structure NothingDone (n s : Cpu β) : Prop where
  data : s.data = n.data
  order : s.order = n.order
  tables : s.control.dirbase.dtb = n.control.dirbase.dtb
  memory : MarksAccessed n.order n.control.dirbase.dtb n.board s.board
  dual : s.dual = n.dual
  compareCode : s.compareCode = n.compareCode
  comparePending : s.comparePending = n.comparePending

namespace NothingDone

theorem trans {n m s : Cpu β} (h : NothingDone n m) (h' : NothingDone m s) : NothingDone n s := by
  have hmemory := h'.memory
  rw [h.order, h.tables] at hmemory
  exact ⟨h'.data.trans h.data, h'.order.trans h.order, h'.tables.trans h.tables,
    h.memory.trans hmemory, h'.dual.trans h.dual, h'.compareCode.trans h.compareCode,
    h'.comparePending.trans h.comparePending⟩

theorem of_faultOnly {kind : TrapKind} {s e : Cpu β} (h : FaultOnly kind s e) :
    NothingDone s e := by
  obtain ⟨mmu, icache, flags, board, hmarks, rfl⟩ := h
  refine ⟨?_, rfl, rfl, hmarks, rfl, rfl, rfl⟩
  cases kind <;> rfl

theorem of_fetched {c n : Cpu β} {i : Instruction} (h : Fetched c i n) : NothingDone c n := by
  obtain ⟨d, -, ⟨mmu, icache, board, hmarks, rfl⟩, rfl⟩ := h
  exact ⟨rfl, rfl, rfl, hmarks, rfl, rfl, rfl⟩

theorem abandon {branch : PendingBranch β} {s : Cpu β} (h : NothingDone branch.slotStart s) :
    NothingDone branch.noted (branch.abandon s) := by
  have hdata : (branch.abandon s).data = branch.noted.data :=
    (branch.abandon_congr h.data).trans branch.abandon_slotStart
  obtain ⟨-, horder, htables, hmemory, hdual, hcode, hpending⟩ := h
  obtain ⟨noted, ⟨written, target, returns, loop⟩⟩ := branch
  cases written <;> exact ⟨hdata, horder, htables, hmemory, hdual, hcode, hpending⟩

end NothingDone

namespace FaultPlace

variable {b m d : Cpu β} {branches : List (PendingBranch β)} {kind : TrapKind}

/-- A fault leaves what all the words before it have made of the data, but for
the registers that the pending branches take back. -/
theorem data_step (h : FaultPlace b branches m kind d) :
    b.step.data = (unwind branches m).data := by
  rw [h.step_eq]
  exact unwind_congr branches (NothingDone.of_faultOnly h.fails.faultOnly).data

theorem memory_step (h : FaultPlace b branches m kind d) :
    MarksAccessed m.order m.control.dirbase.dtb m.board b.step.board := by
  have hboard : b.step.board = d.board := by
    rw [h.step_eq]
    exact board_unwind branches d
  rw [hboard]
  exact (NothingDone.of_faultOnly h.fails.faultOnly).memory

end FaultPlace

theorem ComesTo.eq_of_plain {depth : Nat} {c m : Cpu β} {branches : List (PendingBranch β)}
    {kind : TrapKind} (h : ComesTo depth c branches m)
    (hplain : (trapThrough branches kind).inDelaySlot = false) : branches = [] ∧ m = c := by
  cases h with
  | here => exact ⟨rfl, rfl⟩
  | firstWord _ _ => cases hplain
  | secondWord _ _ _ _ => cases hplain

/-! ## Faults at the second word -/

/-- The delayed branch that is to issue, if there is one and it is taken. -/
def Cpu.pendingBranch? (c : Cpu β) : Option (PendingBranch β) :=
  match fetch c.pc c with
  | .ok w d =>
      let noted := d.noteIssue c.pc ⟨w⟩
      (slotPlan? ⟨w⟩ noted).map fun plan => ⟨noted, plan⟩
  | .error _ _ => none

theorem branches_of_pendingBranch? {c : Cpu β} {branch : PendingBranch β}
    (h : c.pendingBranch? = some branch) : Branches c branch := by
  have hends := fetch_ends c c.pc
  unfold Cpu.pendingBranch? at h
  cases hfetch : fetch c.pc c with
  | error e d =>
      rw [hfetch] at h
      cases h
  | ok w d =>
      rw [hfetch] at h hends
      obtain ⟨plan, hplan, rfl⟩ := Option.map_eq_some_iff.1 h
      cases hends with
      | ok hlooked => exact ⟨⟨w⟩, ⟨d, hfetch, hlooked, rfl⟩, hplan⟩

/-- A step from `b` in which a delayed branch issues in `c`, in dual mode. The
first word of its slot runs to `s`, and the second faults in `e`. -/
structure SecondWordFault (b c : Cpu β) (branch : PendingBranch β) (s e : Cpu β) (t : Trap) :
    Prop where
  issues : IssuesAt b c
  paired : c.flags.dual = true
  branches : Branches c branch
  first : executeOne (maxNesting - 1) branch.slotStart = .ok () s
  second : executeOne (maxNesting - 1) s = .error (.trap t) e

namespace SecondWordFault

variable {b c s e : Cpu β} {branch : PendingBranch β} {t : Trap}

theorem step_eq (h : SecondWordFault b c branch s e t) :
    b.step = ((branch.abandon e).enterTrap t.markDelaySlot).countStep := by
  have hsucc : maxNesting = (maxNesting - 1) + 1 := by decide
  have hone : executeOne maxNesting c =
      .error (.trap t.markDelaySlot) (branch.abandon e) := by
    rw [hsucc, executeOne_of_branches h.branches, slotBody, h.paired, if_pos rfl,
      Exec.bind_apply, h.first]
    dsimp only
    rw [h.second]
    rfl
  unfold Cpu.step
  rw [h.issues.executePair_eq, executePair_apply, hone]

theorem address_eq (h : SecondWordFault b c branch s e t) : branch.address = c.pc := by
  obtain ⟨i, hfetched, -⟩ := h.branches
  exact hfetched.pc_eq

theorem fir_eq (h : SecondWordFault b c branch s e t) : b.step.control.fir = c.pc + 4#32 := by
  rw [h.step_eq, ← h.address_eq, ← branch.pc_abandon e]
  rfl

theorem second_nothingDone (h : SecondWordFault b c branch s e t)
    (hplain : t.inDelaySlot = false) : NothingDone s e := by
  obtain ⟨inner, m, d, hcomes, hfails, htrap, rfl⟩ := faultsAt_of_executeOne h.second
  rw [htrap] at hplain
  obtain ⟨rfl, rfl⟩ := hcomes.eq_of_plain hplain
  exact .of_faultOnly hfails.faultOnly

theorem nothingDone (h : SecondWordFault b c branch s e t)
    (hidle : NothingDone branch.slotStart e) : NothingDone c (branch.abandon e) := by
  obtain ⟨i, hfetched, -⟩ := h.branches
  exact (NothingDone.of_fetched hfetched).trans hidle.abandon

theorem place (h : SecondWordFault b c branch s e t) :
    ∃ inner m d, ComesTo (maxNesting - 1) s inner m ∧
      (t.inDelaySlot = false → inner = [] ∧ m = s) ∧
      FaultPlace b (branch :: inner) m t.kind d := by
  obtain ⟨inner, m, d, hcomes, hfails, htrap, -⟩ := faultsAt_of_executeOne h.second
  have hway : ComesTo maxNesting c (branch :: inner) m :=
    .secondWord h.branches h.paired h.first hcomes
  refine ⟨inner, m, d, hcomes, fun hplain => ?_, ⟨c, h.issues, hway⟩, hfails⟩
  rw [htrap] at hplain
  exact hcomes.eq_of_plain hplain

theorem beginStep_eq (h : SecondWordFault b c branch s e t) {a q r : Cpu β} {i : Instruction}
    (hrun : HandlerRun b.step a) (hreturn : ReturnsTo a q i (a.control.fir - 4#32))
    (hpu : a.step.control.psr.pu = b.step.control.psr.pu)
    (hpim : a.step.control.psr.pim = b.step.control.psr.pim) (hbetween : Between a.step r) :
    r.beginStep = c.startedOver e r := by
  have hback : a.control.fir - 4#32 = (branch.abandon e).pc := by
    rw [hrun.keeps_saved.2, h.fir_eq, branch.pc_abandon, h.address_eq, BitVec.add_sub_cancel]
  have hrestored := restored_of_entry h.step_eq hrun (hback ▸ hreturn) hpu hpim
  obtain ⟨hdual, hcode, hpending, hcapable⟩ := branch.dual_abandon e
  have hsame := Between.sameMode hbetween
  obtain ⟨hpc, hcode', hpending'⟩ := Between.pc_eq hbetween
  have hmid := h.issues.midStep
  have hrpc : r.pc = c.pc :=
    (hpc.trans hrestored.pc).trans ((branch.pc_abandon e).trans h.address_eq)
  have hrdual : r.dual = e.dual := (hsame.dual.trans hrestored.dual).trans hdual
  have hrcode : r.compareCode = e.compareCode :=
    (hcode'.trans hrestored.compareCode).trans hcode
  have hrpending : r.comparePending = e.comparePending :=
    (hpending'.trans hrestored.comparePending).trans hpending
  have hrequest : r.resumeCapable = e.flags.dualCapable :=
    (hsame.resumeCapable.trans hrestored.request).trans hcapable
  unfold Cpu.startedOver
  rw [hmid.flags_eq, hmid.noRequest, ← hrpc, ← hrdual, ← hrcode, ← hrpending, ← hrequest]
  rfl

end SecondWordFault

/-- A slot of two words is not taken back as a whole. The step from `b` issues
a delayed branch in `c`, in dual mode; the first word of its slot has run to
`s` and the second traps. The handler is told of the word behind the branch,
and finds the data of `s`, or of where the word that fails inside of the second
is, except that the branches on the way have taken back the register that each
has written. Memory is as it was there, up to accessed bits. A handler that
returns to the branch, with PU and PIM as it has found them, makes the next
step run the branch with both words of its slot, on whatever data it has left.
A second word that fails itself has done nothing. If the first has done nothing
either, the handler finds the data from before the branch, and the step behind
the return is what the branch and its slot make of what the handler leaves. -/
theorem fault_in_second_word {b c s e : Cpu β} {branch : PendingBranch β} {t : Trap}
    (hfault : SecondWordFault b c branch s e t) :
    (b.step.pc = trapVector ∧ b.step.control.fir = c.pc + 4#32) ∧
    (∃ inner m, ComesTo (maxNesting - 1) s inner m ∧
      (t.inDelaySlot = false → inner = [] ∧ m = s) ∧
      b.step.data = (unwind (branch :: inner) m).data ∧
      MarksAccessed m.order m.control.dirbase.dtb m.board b.step.board) ∧
    (∀ h q i r, HandlerRun b.step h → ReturnsTo h q i (h.control.fir - 4#32) →
      h.step.control.psr.pu = b.step.control.psr.pu →
      h.step.control.psr.pim = b.step.control.psr.pim → Between h.step r →
      ∀ x, closeStep (executePair maxNesting (c.startedOver e r)) = some x → r.step = x) ∧
    (t.inDelaySlot = false → NothingDone s e) ∧
    (NothingDone branch.slotStart e →
      b.step.data = c.data ∧
      MarksAccessed c.order c.control.dirbase.dtb c.board b.step.board ∧
      ∀ r, c.startedOver e r =
        { c.goneOnWith r with
          flags := { c.flags with dualCapable := e.flags.dualCapable } }) := by
  refine ⟨⟨by rw [hfault.step_eq]; rfl, hfault.fir_eq⟩, ?_, ?_, hfault.second_nothingDone, ?_⟩
  · obtain ⟨inner, m, d, hcomes, hplain, hplace⟩ := hfault.place
    exact ⟨inner, m, hcomes, hplain, hplace.data_step, hplace.memory_step⟩
  · intro h q i r hrun hreturn hpu hpim hbetween x hclose
    rw [← hfault.beginStep_eq hrun hreturn hpu hpim hbetween] at hclose
    exact Cpu.step_of_closeStep hclose
  · intro hidle
    have hnothing := hfault.nothingDone hidle
    obtain ⟨hdual, hcode, hpending, -⟩ := branch.dual_abandon e
    have hpairing : e.dual.isDual = c.flags.dual := by
      rw [hfault.issues.midStep.pairing, ← hnothing.dual, hdual]
    refine ⟨?_, ?_, fun r => ?_⟩
    · rw [hfault.step_eq]
      exact hnothing.data
    · rw [hfault.step_eq]
      exact hnothing.memory
    · unfold Cpu.startedOver Cpu.goneOnWith
      rw [hpairing, ← hdual, ← hcode, ← hpending, hnothing.dual, hnothing.compareCode,
        hnothing.comparePending]

/-- A loop branch in dual mode that is to be taken, with `word` beside `intovr`
in its slot and an overflow on record. The handler clears the overflow and
starts the branch over. -/
def overflowBeside (word : Word) : Cpu OpenMemory :=
  .steps 4 (.before 0x1000#32
    [(0x1000#32,
      [0x9404ffff#32, 0xe4050003#32, 0xe4070008#32, 0xec080100#32, 0xb0000200#32, 0x38203800#32,
        0xb0000200#32, 0x38a04000#32, 0xb0000200#32, 0xb4a02008#32, word, 0x4c000004#32]),
      (0xffffff00#32,
        [0x38a00000#32, 0x30140000#32, 0x9694fffc#32, 0x4000a000#32, 0xa0000000#32])])

namespace overflowBeside

/-- `shl r0,r0,r0`. -/
def idle : Word := 0xa0000000#32

/-- `st.c r0,psr`. -/
def clearStatus : Word := 0x38200000#32

variable (word : Word)

/-- Where the branch issues. -/
def issued : Cpu OpenMemory := finalState (executeOne maxNesting (overflowBeside word).beginStep)

def branch : PendingBranch OpenMemory :=
  (issued word).pendingBranch?.getD ⟨issued word, .toward 0#32⟩

/-- Between the two words of the slot. -/
def between : Cpu OpenMemory := finalState (executeOne (maxNesting - 1) (branch word).slotStart)

/-- Where `intovr` has faulted. -/
def fault : Cpu OpenMemory := finalState (executeOne (maxNesting - 1) (between word))

/-- Whether the first word lets the second fault. -/
def Faults : Prop :=
  (overflowBeside word).pc = 0x1020#32 ∧
    ranThrough (executeOne maxNesting (overflowBeside word).beginStep) = true ∧
    (issued word).flags.pcUpdated = false ∧ (issued word).flags.dual = true ∧
    (issued word).pendingBranch?.isSome = true ∧
    ranThrough (executeOne (maxNesting - 1) (branch word).slotStart) = true ∧
    trapOf (executeOne (maxNesting - 1) (between word)) = some (.ofKind .instruction)

instance : Decidable (Faults word) :=
  inferInstanceAs (Decidable (_ ∧ _ ∧ _ ∧ _ ∧ _ ∧ _ ∧ _))

theorem secondWordFault {word : Word} (h : Faults word) :
    SecondWordFault (overflowBeside word) (issued word) (branch word) (between word)
      (fault word) (.ofKind .instruction) := by
  obtain ⟨hpc, hran, hstraight, hpaired, hbranches, hfirst, hsecond⟩ := h
  have hlow : (overflowBeside word).pc.getLsbD 2 = false := by
    rw [hpc]
    rfl
  obtain ⟨found, hfound⟩ := Option.isSome_iff_exists.1 hbranches
  have hbranch : branch word = found := by
    unfold branch
    rw [hfound]
    rfl
  exact {
    issues := .second hlow (eq_ok_of_ranThrough hran) hstraight
    paired := hpaired
    branches := hbranch ▸ branches_of_pendingBranch? hfound
    first := eq_ok_of_ranThrough hfirst
    second := eq_error_of_trapOf hsecond }

end overflowBeside

open overflowBeside

/-- Beside a word that does nothing the branch is started over and taken. -/
theorem fault_in_second_word_of_overflow :
    let b := overflowBeside idle
    let r := b.step.step.step
    b.step.control.fir = 0x1028#32 ∧ b.step.data = (issued idle).data ∧ r.pc = 0x1024#32 ∧
      ∃ x, closeStep (executePair maxNesting ((issued idle).startedOver (fault idle) r)) =
          some x ∧
        r.step = x ∧ x.pc = 0x1048#32 := by
  intro b r
  have hfault : SecondWordFault b (issued idle) (branch idle) (between idle) (fault idle)
      (.ofKind .instruction) :=
    secondWordFault (by decide +kernel)
  have hkept : (between idle).board = (branch idle).slotStart.board ∧
      (between idle).data = (branch idle).slotStart.data ∧
      (between idle).order = (branch idle).slotStart.order ∧
      (between idle).control.dirbase = (branch idle).slotStart.control.dirbase ∧
      (between idle).dual = (branch idle).slotStart.dual ∧
      (between idle).compareCode = (branch idle).slotStart.compareCode ∧
      (between idle).comparePending = (branch idle).slotStart.comparePending := by
    decide +kernel
  obtain ⟨hboard, hdata, horder, hdirbase, hdual, hcode, hpending⟩ := hkept
  have hidle : NothingDone (branch idle).slotStart (between idle) :=
    ⟨hdata, horder, congrArg Dirbase.dtb hdirbase, by rw [hboard]; exact .refl, hdual, hcode,
      hpending⟩
  obtain ⟨⟨-, hfir⟩, -, hrestart, hsecond, hnothing⟩ := fault_in_second_word hfault
  let h := b.step.step
  let q := finalState (executeOne maxNesting h.beginStep)
  have hhandler : b.step.entersTrap = false ∧ h.pc.getLsbD 2 = false ∧
      ranThrough (executeOne maxNesting h.beginStep) = true ∧ q.flags.pcUpdated = false ∧
      q.instruction? = some ⟨0x4000a000#32⟩ ∧ (⟨0x4000a000#32⟩ : Instruction).op = .bri ∧
      q.readInt (⟨0x4000a000#32⟩ : Instruction).src1 = h.control.fir - 4#32 ∧
      q.control.psr.anyTrap = true ∧ h.completes = true ∧
      h.step.control.psr.pu = b.step.control.psr.pu ∧
      h.step.control.psr.pim = b.step.control.psr.pim := by
    decide +kernel
  obtain ⟨hstays, hlow, hran, hstraight, hword, hbri, htoward, hrecord, hcompletes, hpu, hpim⟩ :=
    hhandler
  have hreturn : ReturnsTo h q ⟨0x4000a000#32⟩ (h.control.fir - 4#32) :=
    ⟨.second hlow (eq_ok_of_ranThrough hran) hstraight, hword, hbri, htoward, hrecord, hcompletes⟩
  have hends : (issued idle).pc = 0x1024#32 ∧ r.pc = 0x1024#32 ∧
      (closeStep (executePair maxNesting
        ((issued idle).startedOver (fault idle) r))).map (·.pc) = some 0x1048#32 := by
    decide +kernel
  obtain ⟨hplace, hback, hcloses⟩ := hends
  obtain ⟨x, hx, hxpc⟩ := Option.map_eq_some_iff.1 hcloses
  refine ⟨?_, (hnothing (hidle.trans (hsecond rfl))).1, hback, x, hx, ?_, hxpc⟩
  · rw [hfir, hplace]
    rfl
  · have hrun : HandlerRun b.step h := .step .start hstays
    exact hrestart h q _ h.step hrun hreturn hpu hpim .refl x hx

/-- A word that clears the loop condition has done so when the handler is
entered, though the branch has not been made. Started over, the branch is not
taken. -/
theorem first_word_of_slot_stays :
    let b := overflowBeside clearStatus
    let c := issued clearStatus
    SecondWordFault b c (branch clearStatus) (between clearStatus) (fault clearStatus)
        (.ofKind .instruction) ∧
      c.data.lcc = true ∧ b.step.data.lcc = false ∧ b.step.data ≠ c.data ∧
      b.step.step.step.pc = c.pc ∧ b.step.step.step.step.pc = 0x1030#32 := by
  have hfault : SecondWordFault (overflowBeside clearStatus) (issued clearStatus)
      (branch clearStatus) (between clearStatus) (fault clearStatus) (.ofKind .instruction) :=
    secondWordFault (by decide +kernel)
  exact ⟨hfault, by decide +kernel⟩

end I860
