import I860.Proofs.Moves
import I860.Proofs.Surroundings

/-!
# What an instruction comes to

Sixty operations that are no delayed branches do one of five things with the
processor: they are refused, they compute, they load, they store, or they write
a control register. A `Deed` is one of these with all that the instruction has
made of its operands before it does anything, and `execute_deed` finds the deed
of every instruction. The deed does not depend on the surroundings, so whatever
is said about an instruction in two different ones has five cases and not sixty.

Which address an instruction is going to access, and which control register it
is going to write, can be read off the state it starts in (`Instruction.access?`,
`Instruction.controlWrite?`), and the deed says the same.
-/

namespace I860

variable {β : Type}

/-- What a store puts into memory: an operand, or those bytes of a double that a
mask selects. -/
inductive Deposit where
  | operand (width : Width) (value : Quad)
  | selected (value : Double) (mask : Byte)

def Deposit.width : Deposit → Width
  | operand width _ => width
  | selected _ _ => .double

/-- What an instruction does, other than a delayed branch. -/
inductive Deed (β : Type) where
  | refuse (kind : TrapKind) (note : Cpu β → Cpu β)
  | compute (f : Cpu β → Cpu β)
  | load (vaddr : VirtAddr) (width : Width) (f : Quad → Cpu β → Cpu β)
  | store (vaddr : VirtAddr) (deposit : Deposit) (f : Cpu β → Cpu β)
  | writeControl (reg : ControlReg) (v : Word)

namespace Deed

/-- Beside what its name says, a deed only computes. -/
def Honest : Deed β → Prop
  | refuse _ note => Computes note
  | compute f => Computes f
  | load _ _ f => ∀ v, Computes (f v)
  | store _ _ f => Computes f
  | writeControl _ _ => True

def access? : Deed β → Option (VirtAddr × Width × AccessKind)
  | load vaddr width _ => some (vaddr, width, .read)
  | store vaddr deposit _ => some (vaddr, deposit.width, .write)
  | _ => none

def controlWrite? : Deed β → Option (ControlReg × Word)
  | writeControl reg v => some (reg, v)
  | _ => none

end Deed

namespace Instruction

open Execute

/-- The data that an instruction accesses: where, how much, and for what. -/
def access? (i : Instruction) (c : Cpu β) : Option (VirtAddr × Width × AccessKind) :=
  match i.op with
  | .ldInt => some (effectiveAddr c i (intWidth i), intWidth i, .read)
  | .stInt =>
      some (c.readInt i.src2 + (i.splitOffset &&& (intWidth i).alignMask), intWidth i, .write)
  | .fld => some (effectiveAddr c i (floatWidth i), floatWidth i, .read)
  | .pfld =>
      if floatWidth i = .quad then none
      else some (effectiveAddr c i (floatWidth i), floatWidth i, .read)
  | .fst => some (effectiveAddr c i (floatWidth i), floatWidth i, .write)
  | .pstD => some (effectiveAddr c i .double, .double, .write)
  | _ => none

/-- The control register that an instruction writes, and the word it gets. -/
def controlWrite? (i : Instruction) (c : Cpu β) : Option (ControlReg × Word) :=
  match i.op with
  | .stC => (ControlReg.ofNumber? i.src2).map fun reg => (reg, c.readInt i.src1)
  | _ => none

end Instruction

variable [Bus β]

/-- The board with a deposit at an address. -/
def Deposit.put (order : ByteOrder) (board : β) (paddr : PhysAddr) : Deposit → β
  | operand width value => Bus.store order board paddr width value
  | selected value mask =>
      if mask = 0xff#8 then Bus.store order board paddr .double (value.setWidth 128)
      else storeSelected order board paddr value mask

/-- The processor with a deposit on its board. -/
def Cpu.deposit (c : Cpu β) (paddr : PhysAddr) (d : Deposit) : Cpu β :=
  { c with board := d.put c.order c.board paddr }

def Deed.run : Deed β → Exec β Unit
  | refuse kind note => do
      modify note
      raise kind
  | compute f => modify f
  | load vaddr width f => do
      let v ← readMem vaddr width
      modify (f v)
  | store vaddr deposit f => do
      let paddr ← checkData vaddr deposit.width .write
      modify fun c => f (c.deposit paddr deposit)
  | writeControl reg v => modify (·.writeControl reg v)

/-- The deed of an instruction that starts in `c`, whatever the surroundings are. -/
structure Performs (slot : Exec β Unit) (i : Instruction) (c : Cpu β) (deed : Deed β) :
    Prop where
  honest : deed.Honest
  access : deed.access? = i.access? c
  controlWrite : deed.controlWrite? = i.controlWrite? c
  run : ∀ s, execute slot i (c.within s) = deed.run (c.within s)

section Routines

open Execute

variable (c : Cpu β) (i : Instruction)

theorem writeMem_bind (vaddr : VirtAddr) (width : Width) (value : Quad) (f : Cpu β → Cpu β)
    (c : Cpu β) :
    (do writeMem vaddr width value; modify f : Exec β Unit) c =
      (Deed.store vaddr (.operand width value) f).run c := by
  rw [Deed.run, Exec.bind_apply, writeMem, Exec.bind_apply, Exec.bind_apply]
  cases hchecked : checkData vaddr width .write c with
  | ok paddr s =>
      simp only [Deposit.width, hchecked]
      rfl
  | error e s => simp only [Deposit.width, hchecked]

theorem writeMasked_bind (vaddr : VirtAddr) (value : Double) (mask : Byte) (f : Cpu β → Cpu β)
    (c : Cpu β) :
    (do writeMasked vaddr value mask; modify f : Exec β Unit) c =
      (Deed.store vaddr (.selected value mask) f).run c := by
  rw [Deed.run, Exec.bind_apply, writeMasked, Exec.bind_apply, Exec.bind_apply]
  cases hchecked : checkData vaddr .double .write c with
  | ok paddr s =>
      simp only [Deposit.width, hchecked]
      rfl
  | error e s => simp only [Deposit.width, hchecked]

theorem compute_deed {f : Cpu β → Cpu β} (hf : Computes f) :
    ∃ deed : Deed β, deed.Honest ∧ deed.access? = none ∧ deed.controlWrite? = none ∧
      ∀ s, (modify f : Exec β Unit) (c.within s) = deed.run (c.within s) :=
  ⟨.compute f, hf, rfl, rfl, fun _ => rfl⟩

theorem guarded_deed {refused : Bool} {f : Cpu β → Cpu β} (hf : Computes f) :
    ∃ deed : Deed β, deed.Honest ∧ deed.access? = none ∧ deed.controlWrite? = none ∧
      ∀ s, guarded refused f (c.within s) = deed.run (c.within s) := by
  cases refused with
  | true => exact ⟨.refuse .instruction id, .id, rfl, rfl, fun _ => rfl⟩
  | false => exact ⟨.compute f, hf, rfl, rfl, fun _ => rfl⟩

theorem reciprocal_deed (root : Bool) :
    ∃ deed : Deed β, deed.Honest ∧ deed.access? = none ∧ deed.controlWrite? = none ∧
      ∀ s, reciprocal root i (c.within s) = deed.run (c.within s) := by
  by_cases hrefused : isDoubleToSingle i = true
  · refine ⟨.refuse .instruction id, .id, rfl, rfl, fun s => ?_⟩
    rw [reciprocal, if_pos hrefused]
    rfl
  let v := readOperand c.regs.floats i.src2 i.doubleSource
  by_cases hsource :
      (lacksReciprocal root v && c.params.sourceExceptionTraps && c.control.fsr.fte) = true
  · refine ⟨.refuse .floatingPoint fun c => c.setFsr { c.control.fsr with se := true },
      ⟨fun _ _ => rfl, fun _ => rfl, fun _ => rfl⟩, rfl, rfl, fun s => ?_⟩
    rw [reciprocal, if_neg hrefused, Exec.bind_apply, Exec.get_apply]
    dsimp only
    rw [Exec.ite_apply]
    split
    · rfl
    · next hnone => exact absurd hsource hnone
  · refine ⟨.compute fun d => d.writeSlot i.dest (reciprocalBits d.fpu root i.doubleResult v),
      ⟨fun _ _ => rfl, fun _ => rfl, fun _ => rfl⟩, rfl, rfl, fun s => ?_⟩
    rw [reciprocal, if_neg hrefused, Exec.bind_apply, Exec.get_apply]
    dsimp only
    rw [Exec.ite_apply]
    split
    · next hsome => exact absurd hsome hsource
    · rfl

end Routines

open Execute

/-- Every instruction that is no delayed branch has its deed. -/
theorem execute_deed (slot : Exec β Unit) (i : Instruction) (c : Cpu β)
    (straight : i.op.isDelayedBranch = false) : ∃ deed, Performs slot i c deed := by
  suffices h : ∃ deed : Deed β, deed.Honest ∧ deed.access? = i.access? c ∧
      deed.controlWrite? = i.controlWrite? c ∧
      ∀ s, execute slot i (c.within s) = deed.run (c.within s) by
    obtain ⟨deed, hhonest, haccess, hwrite, hrun⟩ := h
    exact ⟨deed, hhonest, haccess, hwrite, hrun⟩
  unfold execute Instruction.access? Instruction.controlWrite?
  cases hop : i.op <;> dsimp only
  case bri | calli | br | call | bcT | bncT | bla =>
    simp [hop, Op.isDelayedBranch] at straight
  case illegal | trap => exact ⟨.refuse .instruction id, .id, rfl, rfl, fun _ => rfl⟩
  case lock | unlock => exact ⟨.compute id, .id, rfl, rfl, fun _ => rfl⟩
  case intovr =>
    by_cases hof : c.control.epsr.of = true
    · refine ⟨.refuse .instruction id, .id, rfl, rfl, fun s => ?_⟩
      rw [intovr, Exec.bind_apply, Exec.get_apply]
      dsimp only
      rw [Exec.ite_apply]
      exact if_pos hof
    · refine ⟨.compute id, .id, rfl, rfl, fun s => ?_⟩
      rw [intovr, Exec.bind_apply, Exec.get_apply]
      dsimp only
      rw [Exec.ite_apply]
      exact if_neg hof
  case ldInt =>
    refine ⟨.load _ _ fun v c => c.writeInt i.dest (extendLoaded (intWidth i) v),
      fun v => ⟨fun _ _ => rfl, fun _ => rfl, fun _ => rfl⟩, rfl, rfl, fun s => ?_⟩
    rw [ldInt, Exec.bind_apply, Exec.get_apply]
    rfl
  case fld =>
    have hwrites : ∀ v, Computes fun c : Cpu β =>
        c.setFloats (writeLoaded c.regs.floats i.dest (floatWidth i) v) :=
      fun v => ⟨fun _ _ => rfl, fun _ => rfl, fun _ => rfl⟩
    let addr := effectiveAddr c i (floatWidth i)
    refine ⟨.load addr _ fun v c => autoIncrement (c.setFloats
      (writeLoaded c.regs.floats i.dest (floatWidth i) v)) i addr,
      fun v => (computes_autoIncrement i _).comp (hwrites v), rfl, rfl, fun s => ?_⟩
    rw [fld, Exec.bind_apply, Exec.get_apply]
    rfl
  case pfld =>
    by_cases hquad : floatWidth i = .quad
    · refine ⟨.refuse .instruction id, .id, (if_pos hquad).symm, rfl, fun s => ?_⟩
      rw [pfld, if_pos hquad]
      rfl
    · have hretires : ∀ v, Computes fun c : Cpu β => retireLoad c i (floatWidth i) v :=
        fun v => ⟨fun _ _ => rfl, fun _ => rfl, fun _ => rfl⟩
      let addr := effectiveAddr c i (floatWidth i)
      refine ⟨.load addr _ fun v c => autoIncrement (retireLoad c i (floatWidth i) v) i addr,
        fun v => (computes_autoIncrement i _).comp (hretires v), (if_neg hquad).symm, rfl,
        fun s => ?_⟩
      rw [pfld, if_neg hquad, Exec.bind_apply, Exec.get_apply]
      rfl
  case stInt =>
    refine ⟨.store _ (.operand (intWidth i) ((c.readInt i.src1).setWidth 128)) id, .id, rfl, rfl,
      fun s => ?_⟩
    rw [stInt, Exec.bind_apply, Exec.get_apply]
    rfl
  case fst =>
    let addr := effectiveAddr c i (floatWidth i)
    refine ⟨.store addr (.operand (floatWidth i) (readStored c.regs.floats i.dest (floatWidth i)))
      fun c => autoIncrement c i addr, computes_autoIncrement i addr, rfl, rfl, fun s => ?_⟩
    rw [fst, Exec.bind_apply, Exec.get_apply]
    exact writeMem_bind _ _ _ _ _
  case pstD =>
    let addr := effectiveAddr c i .double
    let size := c.control.psr.pixelSize
    let moved (c : Cpu β) : Cpu β :=
      c.setPsr { c.control.psr with pm := c.control.psr.pm >>> size.perDouble }
    have hmoved : Computes moved := ⟨fun _ _ => rfl, fun _ => rfl, fun _ => rfl⟩
    let deposit : Deposit := .selected (c.regs.floats.readPair i.dest)
      (Graphics.storeMask size c.control.psr.pm)
    refine ⟨.store addr deposit fun c => autoIncrement (moved c) i addr,
      (computes_autoIncrement i addr).comp hmoved, rfl, rfl, fun s => ?_⟩
    rw [pstD, Exec.bind_apply, Exec.get_apply]
    exact writeMasked_bind _ _ _ _ _
  case ldC => exact compute_deed c (computes_ldC i)
  case stC =>
    cases hreg : ControlReg.ofNumber? i.src2 with
    | none =>
        refine ⟨.compute id, .id, rfl, rfl, fun s => ?_⟩
        rw [Exec.modify_apply, stC, hreg]
        rfl
    | some reg =>
        refine ⟨.writeControl reg (c.readInt i.src1), trivial, rfl, rfl, fun s => ?_⟩
        rw [Exec.modify_apply, stC, hreg]
        rfl
  case bc | bnc =>
    refine ⟨.compute (branchIf (c.branchCode == _) (branchTarget c.pc i.branchOffset)),
      computes_branchIf _ _, rfl, rfl, fun _ => rfl⟩
  case bte | btne =>
    refine ⟨.compute (branchIf ((compareOperand c i == c.readInt i.src2) == _)
      (branchTarget c.pc i.splitOffset)), computes_branchIf _ _, rfl, rfl, fun _ => rfl⟩
  case frcp | frsqr => exact reciprocal_deed c i _
  case fmul | pfmul3 | fadd | fsub =>
    exact guarded_deed c (.of_frame (fun c s => within_binary ..) fun c => frame_binary ..)
  case fmlow => exact guarded_deed c ⟨fun _ _ => rfl, fun _ => rfl, fun _ => rfl⟩
  case famov =>
    exact guarded_deed c (.of_frame (fun c s => within_issue ..) fun c => frame_issue ..)
  case dualOp =>
    refine guarded_deed c (.of_frame (fun c s => ?_) fun c => ?_)
    · dsimp only
      rw [within_dualRetired, within_loadRouted, within_dualSum, within_dualProduct,
        within_lastStage, within_lastStage]
      rfl
    · rw [frame_advance, frame_setPrecision, frame_advance, frame_setPrecision,
        Cpu.frame_writeSlot]
      rfl
  case flush | shl | shr | shra | fix | ftrunc | pfgt | pfeq | fiadd | fisub | faddp | faddz | form
      | fzchkl | fzchks =>
    exact compute_deed c (.of_frame (by simp) (by simp))
  -- The rest are a single write.
  all_goals exact compute_deed c ⟨fun _ _ => rfl, fun _ => rfl, fun _ => rfl⟩

/-! ## What deeds leave alone -/

/-- Nothing that deeds are made of shows in a view of the processor. -/
structure Untouched {α : Type} (view : Cpu β → α) : Prop where
  compute : ∀ {f : Cpu β → Cpu β}, Computes f → ∀ c, view (f c) = view c
  translate : ∀ vaddr access c, view (finalState (translate vaddr access c)) = view c
  board : ∀ c board, view { c with board := board } = view c
  control : ∀ c reg v, view (c.writeControl reg v) = view c

namespace Untouched

variable {α γ : Type} {view : Cpu β → α}

theorem checkData (h : Untouched view) (vaddr : VirtAddr) (width : Width) (access : AccessKind)
    (c : Cpu β) : view (finalState (checkData vaddr width access c)) = view c := by
  rw [checkData_eq]
  split
  · exact h.compute (f := fun c => c.setPsr (c.control.psr.setTrap .dataAccess))
      ⟨fun _ _ => rfl, fun _ => rfl, fun _ => rfl⟩ c
  · exact h.translate vaddr access c

omit [Bus β] in
theorem bind {x : Exec β γ} {f : γ → Exec β Unit} {c : Cpu β}
    (hx : view (finalState (x c)) = view c) (hf : ∀ a d, view (finalState (f a d)) = view d) :
    view (finalState ((x >>= f) c)) = view c := by
  rw [Exec.bind_apply]
  cases hran : x c with
  | ok a d =>
      rw [hran] at hx
      exact (hf a d).trans hx
  | error e d =>
      rw [hran] at hx
      exact hx

theorem run (h : Untouched view) {deed : Deed β} (honest : deed.Honest) (c : Cpu β) :
    view (finalState (deed.run c)) = view c := by
  cases deed with
  | refuse kind note =>
      have hraised : Computes fun d : Cpu β => d.setPsr (d.control.psr.setTrap kind) :=
        ⟨fun _ _ => rfl, fun _ => rfl, fun _ => rfl⟩
      exact h.compute (hraised.comp honest) c
  | compute f => exact h.compute honest c
  | load vaddr width f =>
      refine bind ?_ fun v => h.compute (honest v)
      have hread := h.checkData vaddr width .read c
      rw [readMem, Exec.bind_apply]
      cases hchecked : I860.checkData vaddr width .read c <;> (rw [hchecked] at hread; exact hread)
  | store vaddr deposit f =>
      exact bind (h.checkData vaddr deposit.width .write c) fun paddr d =>
        (h.compute honest (d.deposit paddr deposit)).trans (h.board d _)
  | writeControl reg v => exact h.control c reg v

/-- An instruction does not show in such a view, if it is no delayed branch. -/
theorem execute (h : Untouched view) (slot : Exec β Unit) {i : Instruction}
    (straight : i.op.isDelayedBranch = false) (c : Cpu β) :
    view (finalState (execute slot i c)) = view c := by
  obtain ⟨deed, hdeed⟩ := execute_deed slot i c straight
  have hran := hdeed.run c.surroundings
  rw [c.within_surroundings] at hran
  rw [hran]
  exact h.run hdeed.honest c

end Untouched

end I860
