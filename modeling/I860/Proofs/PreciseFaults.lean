import I860.Proofs.Steps

/-!
# Faults are precise

An instruction that faults in single issue has not happened. The processor is
as it was but for the record of the trap, for what the caches have learned,
and for what the step loop notes of it (`fault_in_single_issue`). Memory has
at most got accessed bits, in the page tables that were walked.

For most instructions that is how they are made: they are refused before they
have done anything. Some delayed branches have written a register by then,
and their slot was run at another address. The induction over the nesting of
slots shows that each level takes back what it did, and that there is nothing
else to take back, as a slot in single issue holds one instruction.
-/

namespace I860

variable {β : Type}

namespace IntRegs

/-- Writing back what a register held undoes a write. -/
theorem write_back (r : IntRegs) (i : RegNum) (v : Word) :
    (r.write i v).write i (r.read i) = r := by
  unfold write read
  split
  · rfl
  · simp [Vector.get]

end IntRegs

variable [Bus β]

/-- The processor is as it was, but that a trap is on record and addresses
have been looked up, and for the flags of the step. -/
def FaultOnly (kind : TrapKind) (c d : Cpu β) : Prop :=
  ∃ (mmu : Mmu) (icache : InstructionCache) (flags : StepFlags) (board : β),
    MarksAccessed c.order c.control.dirbase.dtb c.board board ∧
      d = { c.faulted kind with mmu := mmu, icache := icache, flags := flags, board := board }

namespace FaultOnly

variable {kind : TrapKind} {c n d : Cpu β}

theorem of_lookedUp (h : LookedUp c d) : FaultOnly kind c (d.faulted kind) := by
  obtain ⟨mmu, icache, board, hmarks, rfl⟩ := h
  exact ⟨mmu, icache, c.flags, board, hmarks, rfl⟩

theorem after_fetch {i : Instruction} (hfetched : Fetched c i n) (h : FaultOnly kind n d) :
    FaultOnly kind c d := by
  obtain ⟨e, -, ⟨mmu, icache, board, hmarks, rfl⟩, rfl⟩ := hfetched
  obtain ⟨mmu', icache', flags', board', hmarks', rfl⟩ := h
  exact ⟨mmu', icache', flags', board', hmarks.trans hmarks', rfl⟩

/-- A branch that takes back what it did before its slot leaves of a fault in
its slot what the slot leaves of it. -/
theorem undo (p : SlotPlan) (h : FaultOnly kind (p.enter n).inSlot d) :
    FaultOnly kind n (p.undo n (d.backAt (p.enter n).pc)) := by
  obtain ⟨mmu, icache, flags, board, hmarks, rfl⟩ := h
  obtain ⟨written, target, returns, loop⟩ := p
  cases written with
  | none => exact ⟨mmu, icache, { flags with pcUpdated := false }, board, hmarks, rfl⟩
  | some w =>
      obtain ⟨r, v⟩ := w
      refine ⟨mmu, icache, { flags with pcUpdated := false }, board, hmarks, ?_⟩
      simp only [SlotPlan.undo, SlotPlan.enter, Cpu.backAt, Cpu.inSlot, Cpu.faulted,
        Cpu.writeInt, Cpu.readInt, IntRegs.write_back]

end FaultOnly

theorem executeOne_faultOnly {depth : Nat} {c d : Cpu β} {t : Trap}
    (hsingle : c.flags.dual = false)
    (h : executeOne depth c = .error (.trap t) d) : FaultOnly t.kind c d := by
  induction depth generalizing c d t with
  | zero => cases h
  | succ depth ih =>
      have hissue := executeOne_issue depth c
      rw [h] at hissue
      cases hissue with
      | unfetched kind hlooked _ => exact .of_lookedUp hlooked
      | refused kind hfetched _ hlooked => exact .after_fetch hfetched (.of_lookedUp hlooked)
      | @slotFault i n e p _ hfetched hplan hran =>
          refine .after_fetch hfetched ?_
          have hdual : (p.enter n).flags.dual = false := by
            rw [hfetched.pairing_enter, hsingle]
          obtain ⟨t₀, e', hone, rfl, rfl⟩ := eq_error_of_delaySlot hdual hran
          have hslot : FaultOnly t₀.kind (p.enter n).inSlot e' := ih hdual hone
          exact hslot.undo p

/-- In single issue an instruction that faults, itself or in its slots to any
depth, leaves everything as it was except that the trap is on record, and for
what looking addresses up leaves in the caches and in the page tables. -/
theorem fault_in_single_issue {depth : Nat} {c d : Cpu β} {t : Trap}
    (hsingle : c.flags.dual = false)
    (h : executeOne depth c = .error (.trap t) d) :
    d =
        { c.faulted t.kind with
          mmu := d.mmu, icache := d.icache, flags := d.flags, board := d.board } ∧
      MarksAccessed c.order c.control.dirbase.dtb c.board d.board ∧
      ([PlainMemory β] → ∀ a : PhysAddr,
        Bus.readByte d.board a = Bus.readByte c.board a ∨
          Bus.readByte d.board a = Bus.readByte c.board a ||| 0x20#8 ∧
            ∃ between, MarksAccessed c.order c.control.dirbase.dtb c.board between ∧
              HoldsAccessedBit c.order c.control.dirbase.dtb between a) := by
  obtain ⟨mmu, icache, flags, board, hmarks, rfl⟩ := executeOne_faultOnly hsingle h
  exact ⟨rfl, hmarks, fun a => hmarks.readByte a⟩

/-- A call whose slot holds `trap`. -/
def trapBehindCall : Cpu OpenMemory :=
  .before 0x1000#32 [(0x1000#32, [0x6c000000#32, 0x44000000#32])]

/-- The call has written its link register by the time its slot faults. -/
theorem fault_in_single_issue_call :
    trapOf (executeOne 2 trapBehindCall) = some ⟨.instruction, true, false⟩ ∧
      (finalState (executeOne 2 trapBehindCall)).regs = trapBehindCall.regs := by
  have hsingle : trapBehindCall.flags.dual = false := rfl
  have htrap : trapOf (executeOne 2 trapBehindCall) = some ⟨.instruction, true, false⟩ := by
    decide +kernel
  obtain ⟨hfault, -, -⟩ := fault_in_single_issue hsingle (eq_error_of_trapOf htrap)
  refine ⟨htrap, ?_⟩
  rw [hfault]
  rfl

end I860
