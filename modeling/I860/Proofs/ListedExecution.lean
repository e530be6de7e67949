import I860.Proofs.BranchCommit
import I860.Proofs.ListingOperands
import I860.Proofs.PipeIssue
import I860.Proofs.PixelStores

/-!
# Listings say what is executed

Listings and execution each take the fields of an instruction word apart on their own. Here
an instruction is executed, and what it has accessed and where it has gone is compared with
what can be read in its line: the width and the address operand of a load or store, the
address of a branch.

A load or store is its access and what it does to registers and pipes afterwards, both for
the width and the address that are shown (`execute_access`). So it completes where such an
access can be made, and what it leaves in the registers is data of that width.

They agree with one exception. A store of pixels and a flush write their address back if
bit 0 of the word is set, and their lines do not show it (`Instruction.hidesIncrement`).
-/

namespace I860

open Execute Listing

/-! ## What is executed -/

def Op.accessKind : Op → AccessKind
  | .ldInt | .fld | .pfld => .read
  | _ => .write

/-- An access to data of a width has been made at an address, and has moved a value. A store
of a double may be one of those pixels of it that PM selects. -/
inductive Accesses {β : Type} [Bus β] (vaddr : VirtAddr) (w : Width) (c : Cpu β) :
    AccessKind → Quad → Cpu β → Prop
  | load {v : Quad} {e : Cpu β} (h : readMem vaddr w c = .ok v e) : Accesses vaddr w c .read v e
  | store {v : Quad} {e : Cpu β} (h : writeMem vaddr w v c = .ok () e) :
      Accesses vaddr w c .write v e
  | storeSelected {v : Double} {e : Cpu β} (hw : w = .double)
      (h : writeMasked vaddr v (Graphics.storeMask c.control.psr.pixelSize c.control.psr.pm) c =
        .ok () e) :
      Accesses vaddr w c .write (v.setWidth 128) e

namespace Instruction

variable {β : Type} (i : Instruction)

/-- Whether the address is written back and the listing does not show it. -/
def hidesIncrement : Bool :=
  match i.op with
  | .pstD | .flush => i.autoIncrement
  | _ => false

/-- What a store of a width takes from the registers. -/
def stored (w : Width) (c : Cpu β) : Quad :=
  match i.op with
  | .stInt => (c.readInt i.src1).setWidth 128
  | .pstD => (c.regs.floats.readPair i.dest).setWidth 128
  | _ => readStored c.regs.floats i.dest w

/-- The integer registers after an access: what has been loaded, and the address if it
is written back. -/
def intsAfter (a : AddressOperand) (w : Width) (v : Quad) (c : Cpu β) : IntRegs :=
  let loaded :=
    if i.op = .ldInt then c.regs.ints.write i.dest (extendLoaded w v) else c.regs.ints
  if a.increment || i.hidesIncrement then loaded.write i.src2 (a.address c) else loaded

/-- The floating registers after an access: what has been loaded or, for a load through the
pipe, what has come out of it. -/
def floatsAfter (w : Width) (v : Quad) (c : Cpu β) : FloatRegs :=
  match i.op with
  | .fld => writeLoaded c.regs.floats i.dest w v
  | .pfld => (c.writeSlot i.dest (c.loads.last .three)).regs.floats
  | _ => c.regs.floats

/-- The load pipe after an access. -/
def loadsAfter (w : Width) (v : Quad) (c : Cpu β) : PipeState :=
  if i.op = .pfld then (PipeName.loads.state c).issue .three (.ofLoaded w v)
  else PipeName.loads.state c

/-- What the instruction leaves in `d` if its access in `c` has moved a value and left `e`. -/
structure Leaves (a : AddressOperand) (w : Width) (v : Quad) (c e d : Cpu β) : Prop where
  board : d.board = e.board
  ints : d.regs.ints = i.intsAfter a w v c
  floats : d.regs.floats = i.floatsAfter w v c
  loads : PipeName.loads.state d = i.loadsAfter w v c

/-- The instruction has accessed data of a width where an address operand says, has stored
what it takes from the registers if it is a store, and has left the registers and the load
pipe that follow. -/
def AccessesAt [Bus β] (a : AddressOperand) (w : Width) (c d : Cpu β) : Prop :=
  ∃ v e, Accesses (a.address c) w c i.op.accessKind v e ∧
    (i.op.accessKind = .write → v = i.stored w c) ∧ i.Leaves a w v c e d

/-- Data of a width can be accessed where an address operand says. -/
def CanAccess [Bus β] (a : AddressOperand) (w : Width) (c : Cpu β) : Prop :=
  ∃ v e, Accesses (a.address c) w c i.op.accessKind v e

/-- Whether a branch is taken that issues in `c`. -/
def branches (c : Cpu β) : Bool :=
  match i.op with
  | .bc => c.branchCode
  | .bnc => !c.branchCode
  | .bte => compareOperand c i == c.readInt i.src2
  | .btne => !(compareOperand c i == c.readInt i.src2)
  | _ => i.taken c

end Instruction

/-! ## Operands -/

section Operands

variable {β : Type} (c : Cpu β) (i : Instruction)

theorem address_indexOf (w : Width) :
    c.readInt i.src2 + (indexOf i w).elim c.readInt (BitVec.ofInt 32) = effectiveAddr c i w := by
  unfold indexOf effectiveAddr
  split
  · exact congrArg _ (BitVec.ofInt_toInt)
  · rfl

/-- The address of a load, or of a floating store. -/
theorem address_addressOperand
    (hop : i.op = .ldInt ∨ i.op = .fld ∨ i.op = .pfld ∨ i.op = .fst) :
    (addressOperand i).address c = effectiveAddr c i (widthOf i) := by
  have hoperand : (addressOperand i).base = i.src2 ∧
      (addressOperand i).index = indexOf i (widthOf i) := by
    rcases hop with hop | hop | hop | hop <;> rw [addressOperand, widthOf, hop] <;> exact ⟨rfl, rfl⟩
  rw [AddressOperand.address, hoperand.1, hoperand.2]
  exact address_indexOf c i _

/-- Pixels are stored with a displacement only: there is no opcode with an index register. -/
theorem hasImmediate_of_pstD {i : Instruction} (hop : i.op = .pstD) : i.hasImmediate = true := by
  have hlt : i.primary < 64 := by
    rw [Instruction.primary, BitVec.toNat_ushiftRight, Nat.shiftRight_eq_div_pow]
    have := i.raw.isLt
    omega
  have hprimary : ∀ n < 64, Op.ofPrimary n = .pstD → n = 15 := by decide
  have hfloat : ∀ n, Op.ofFloatEscape n ≠ .pstD := by
    intro n
    unfold Op.ofFloatEscape
    split <;> first | decide | (split <;> decide)
  have hcore : ∀ n, Op.ofCoreEscape n ≠ .pstD := by
    intro n
    unfold Op.ofCoreEscape
    split <;> decide
  unfold Instruction.op at hop
  split at hop
  · exact absurd hop (hfloat _)
  · split at hop
    · exact absurd hop (hcore _)
    · -- The lowest bit of the primary opcode is the flag.
      have hbits := hprimary _ hlt hop
      have hbit : i.hasImmediate = i.primary.testBit 0 := by
        rw [Instruction.hasImmediate, Instruction.primary, BitVec.testBit_toNat,
          BitVec.getLsbD_ushiftRight]
      rw [hbit, hbits]
      rfl

theorem address_pstD (hop : i.op = .pstD) :
    (addressOperand i).address c = effectiveAddr c i .double := by
  rw [AddressOperand.address, addressOperand, hop, effectiveAddr,
    if_pos (hasImmediate_of_pstD hop)]
  exact congrArg _ BitVec.ofInt_toInt

theorem address_stInt (hop : i.op = .stInt) :
    (addressOperand i).address c =
      c.readInt i.src2 + (i.splitOffset &&& (intWidth i).alignMask) := by
  rw [AddressOperand.address, addressOperand, hop]
  exact congrArg _ BitVec.ofInt_toInt

/-- An address is written back by floating loads and stores that say so, and by no others. -/
theorem increment_or_hidden (hop : i.op.accessesMemory = true) :
    ((addressOperand i).increment || i.hidesIncrement) =
      (i.op != .ldInt && i.op != .stInt && i.autoIncrement) := by
  unfold addressOperand Instruction.hidesIncrement
  cases hcase : i.op <;> rw [hcase] at hop
  case ldInt | stInt => rfl
  case fld | pfld | fst => exact Bool.or_false _
  case pstD => rfl
  all_goals cases hop

theorem ints_autoIncrement (addr : VirtAddr) :
    (autoIncrement c i addr).regs.ints =
      if i.autoIncrement then c.regs.ints.write i.src2 addr else c.regs.ints := by
  unfold autoIncrement
  split <;> rfl

theorem pc_branchIf {taken : Bool} (htaken : taken = true) (target : Word) :
    (branchIf taken target c).pc = target ∧ (branchIf taken target c).flags.pcUpdated = true := by
  rw [branchIf, if_pos htaken]
  exact ⟨rfl, rfl⟩

end Operands

/-! ## What is left -/

section Finish

variable {β : Type} {i : Instruction} {c e : Cpu β} {w : Width} {v : Quad}

/-- What a load or store does to the state `e` that its access has left. -/
def Instruction.finish (i : Instruction) (vaddr : VirtAddr) (w : Width) (v : Quad)
    (c e : Cpu β) : Cpu β :=
  match i.op with
  | .ldInt => e.writeInt i.dest (extendLoaded w v)
  | .fld => Execute.autoIncrement (e.setFloats (writeLoaded e.regs.floats i.dest w v)) i vaddr
  | .pfld => Execute.autoIncrement (retireLoad e i w v) i vaddr
  | .fst => Execute.autoIncrement e i vaddr
  | .pstD =>
      let psr := e.control.psr
      let moved := { psr with pm := psr.pm >>> c.control.psr.pixelSize.perDouble }
      Execute.autoIncrement (e.setPsr moved) i vaddr
  | _ => e

/-- Whatever was done before it, writing the address back concerns one register only. -/
theorem leaves_autoIncrement {a : AddressOperand} {m : Cpu β} (hload : i.op ≠ .ldInt)
    (hincrement : (a.increment || i.hidesIncrement) = i.autoIncrement)
    (hboard : m.board = e.board) (hints : m.regs.ints = c.regs.ints)
    (hfloats : m.regs.floats = i.floatsAfter w v c)
    (hloads : PipeName.loads.state m = i.loadsAfter w v c) :
    i.Leaves a w v c e (autoIncrement m i (a.address c)) := by
  refine ⟨(board_autoIncrement ..).trans hboard, ?_, (floats_autoIncrement ..).trans hfloats,
    (PipeName.state_autoIncrement ..).trans hloads⟩
  rw [ints_autoIncrement, hints, Instruction.intsAfter, hincrement, if_neg hload]

/-- The registers and the load pipe follow from the value that the access has moved. -/
theorem leaves_finish (hop : i.op.accessesMemory = true) (hregs : e.regs = c.regs)
    (hloads : PipeName.loads.state e = PipeName.loads.state c) :
    i.Leaves (addressOperand i) w v c e (i.finish ((addressOperand i).address c) w v c e) := by
  have hincrement := increment_or_hidden i hop
  have hints : e.regs.ints = c.regs.ints := congrArg _ hregs
  -- Only the floating loads do something to the floating registers and the pipe.
  have hfloats : i.op ≠ .fld → i.op ≠ .pfld → e.regs.floats = i.floatsAfter w v c := by
    intro hfld hpfld
    unfold Instruction.floatsAfter
    split
    · contradiction
    · contradiction
    · exact congrArg _ hregs
  have hpipe : i.op ≠ .pfld → PipeName.loads.state e = i.loadsAfter w v c := by
    intro hpfld
    rw [Instruction.loadsAfter, if_neg hpfld, hloads]
  unfold Instruction.finish
  cases hcase : i.op <;> rw [hcase] at hop hincrement hfloats hpipe <;> dsimp only
  case ldInt =>
    refine ⟨rfl, ?_, hfloats (by decide) (by decide), hpipe (by decide)⟩
    rw [Instruction.intsAfter, hincrement, if_pos hcase, ← hints]
    rfl
  case stInt =>
    refine ⟨rfl, ?_, hfloats (by decide) (by decide), hpipe (by decide)⟩
    rw [Instruction.intsAfter, hincrement, hcase]
    exact hints
  case fld =>
    refine leaves_autoIncrement (by rw [hcase]; decide) hincrement rfl hints ?_ (hpipe (by decide))
    rw [Instruction.floatsAfter, hcase, ← hregs]
    rfl
  case pfld =>
    have hstages : e.loads = c.loads := congrArg PipeState.stages hloads
    refine leaves_autoIncrement (by rw [hcase]; decide) hincrement rfl hints ?_ ?_
    · rw [Instruction.floatsAfter, hcase, ← hstages, Cpu.writeSlot, ← hregs]
      rfl
    · rw [Instruction.loadsAfter, if_pos hcase, ← hloads]
      rfl
  case fst | pstD =>
    exact leaves_autoIncrement (by rw [hcase]; decide) hincrement rfl hints
      (hfloats (by decide) (by decide)) (hpipe (by decide))
  all_goals cases hop

end Finish

/-! ## Accesses -/

section Execution

variable {β : Type} [Bus β] {i : Instruction} {slot : Exec β Unit} {c d : Cpu β}

namespace Accesses

variable {vaddr : VirtAddr} {w : Width} {kind : AccessKind} {v : Quad} {e : Cpu β}

/-- What an access has passed, and the state after the checks. -/
theorem checked (h : Accesses vaddr w c kind v e) :
    ∃ paddr, checkData vaddr w kind c = .ok paddr (c.translating vaddr kind) ∧
      ∃ board, e = { c.translating vaddr kind with board := board } := by
  cases h with
  | load h =>
      rw [readMem, Exec.bind_apply] at h
      split at h
      · next paddr m hchecked =>
          obtain ⟨-, rfl⟩ := translated_of_checkData hchecked
          cases h
          exact ⟨paddr, hchecked, _, rfl⟩
      · cases h
  | store h =>
      rw [writeMem_eq] at h
      split at h
      · next paddr m hchecked =>
          obtain ⟨-, rfl⟩ := translated_of_checkData hchecked
          cases h
          exact ⟨paddr, hchecked, _, rfl⟩
      · cases h
  | storeSelected hw h =>
      rw [writeMasked_eq] at h
      split at h
      · next paddr m hchecked =>
          obtain ⟨-, rfl⟩ := translated_of_checkData hchecked
          cases h
          exact ⟨paddr, hw ▸ hchecked, _, rfl⟩
      · cases h

/-- An access by itself does nothing to registers and pipes. -/
theorem kept (h : Accesses vaddr w c kind v e) :
    e.regs = c.regs ∧ PipeName.loads.state e = PipeName.loads.state c := by
  obtain ⟨-, -, -, rfl⟩ := h.checked
  exact ⟨rfl, rfl⟩

end Accesses

/-- The access that a load or store makes, with the value that it moves. -/
def Instruction.access (i : Instruction) (vaddr : VirtAddr) (w : Width) (c : Cpu β) :
    Exec β Quad :=
  match i.op with
  | .ldInt | .fld | .pfld => readMem vaddr w
  | .pstD => do
      let mask := Graphics.storeMask c.control.psr.pixelSize c.control.psr.pm
      writeMasked vaddr (c.regs.floats.readPair i.dest) mask
      return i.stored w c
  | _ => do
      writeMem vaddr w (i.stored w c)
      return i.stored w c

/-- A load or store makes its access for the width and the address that are shown. -/
theorem execute_access (hop : i.op.accessesMemory = true)
    (hquad : i.op = .pfld → widthOf i ≠ .quad) :
    execute slot i c =
      (i.access ((addressOperand i).address c) (widthOf i) c >>= fun v =>
        modify (i.finish ((addressOperand i).address c) (widthOf i) v c)) c := by
  unfold execute Instruction.access Instruction.finish
  cases hcase : i.op <;> rw [hcase] at hop <;> dsimp only
  case ldInt =>
    have hwidth : widthOf i = intWidth i := by rw [widthOf, hcase]
    rw [address_addressOperand c i (by simp [hcase]), hwidth]
    rfl
  case fld =>
    have hwidth : widthOf i = floatWidth i := by rw [widthOf, hcase]
    rw [address_addressOperand c i (by simp [hcase]), hwidth]
    rfl
  case pfld =>
    have hwidth : widthOf i = floatWidth i := by rw [widthOf, hcase]
    have hlegal := hquad hcase
    rw [hwidth] at hlegal
    rw [address_addressOperand c i (by simp [hcase]), hwidth, pfld, if_neg hlegal]
    rfl
  case stInt =>
    have hwidth : widthOf i = intWidth i := by rw [widthOf, hcase]
    rw [address_stInt c i hcase, hwidth, Exec.bind_apply, Exec.bind_apply, Instruction.stored,
      hcase, stInt, Exec.bind_apply, Exec.get_apply]
    dsimp only
    cases writeMem _ _ _ c <;> rfl
  case fst =>
    have hwidth : widthOf i = floatWidth i := by rw [widthOf, hcase]
    rw [address_addressOperand c i (by simp [hcase]), hwidth, Exec.bind_apply, Exec.bind_apply,
      Instruction.stored, hcase, fst, Exec.bind_apply, Exec.get_apply]
    dsimp only
    rw [Exec.bind_apply]
    cases writeMem _ _ _ c <;> rfl
  case pstD =>
    have hwidth : widthOf i = .double := by rw [widthOf, hcase]
    rw [address_pstD c i hcase, hwidth, Exec.bind_apply, Exec.bind_apply, Instruction.stored,
      hcase, pstD, Exec.bind_apply, Exec.get_apply]
    dsimp only
    rw [Exec.bind_apply]
    cases writeMasked _ _ _ c <;> rfl
  all_goals cases hop

theorem accesses_of_access {vaddr : VirtAddr} {w : Width} {v : Quad} {e : Cpu β}
    (hop : i.op.accessesMemory = true) (hpixels : i.op = .pstD → w = .double)
    (h : i.access vaddr w c c = .ok v e) :
    Accesses vaddr w c i.op.accessKind v e ∧
      (i.op.accessKind = .write → v = i.stored w c) := by
  have hwrite : ∀ {write : Exec β Unit}, (write >>= fun _ => pure (i.stored w c)) c = .ok v e →
      write c = .ok () e ∧ v = i.stored w c := by
    intro write h
    rw [Exec.bind_apply] at h
    split at h
    · next hran =>
        cases h
        exact ⟨hran, rfl⟩
    · cases h
  unfold Instruction.access at h
  cases hcase : i.op <;> rw [hcase] at h hop
  case ldInt | fld | pfld => exact ⟨.load h, nofun⟩
  case stInt | fst =>
    obtain ⟨hran, rfl⟩ := hwrite h
    exact ⟨.store hran, fun _ => rfl⟩
  case pstD =>
    obtain ⟨hran, rfl⟩ := hwrite h
    have hvalue : i.stored w c = (c.regs.floats.readPair i.dest).setWidth 128 := by
      rw [Instruction.stored, hcase]
    rw [hvalue]
    exact ⟨.storeSelected (hpixels hcase) hran, fun _ => rfl⟩
  all_goals cases hop

/-- Whether an access can be made does not depend on the value that is moved. -/
theorem access_of_canAccess {a : AddressOperand} {w : Width} (hop : i.op.accessesMemory = true)
    (hpixels : i.op = .pstD → w = .double) (h : i.CanAccess a w c) :
    ∃ v e, i.access (a.address c) w c c = .ok v e := by
  obtain ⟨v, e, haccesses⟩ := h
  obtain ⟨paddr, hchecked, -⟩ := haccesses.checked
  unfold Instruction.access
  cases hcase : i.op <;> rw [hcase] at haccesses hchecked hop
  case ldInt | fld | pfld =>
    cases haccesses with
    | load hread => exact ⟨v, e, hread⟩
  case stInt | fst =>
    dsimp only
    rw [Exec.bind_apply, writeMem_eq, show checkData _ _ .write c = _ from hchecked]
    exact ⟨_, _, rfl⟩
  case pstD =>
    obtain rfl := hpixels hcase
    dsimp only
    rw [Exec.bind_apply, writeMasked_eq, show checkData _ _ .write c = _ from hchecked]
    exact ⟨_, _, rfl⟩
  all_goals cases hop

theorem ne_quad_of_ok (hcase : i.op = .pfld) (h : execute slot i c = .ok () d) :
    widthOf i ≠ .quad := by
  rw [execute, hcase] at h
  rw [widthOf, hcase]
  exact (pfld_of_ok h).1

/-- What a load or store accesses is what its line shows. -/
theorem accesses_of_ok (hop : i.op.accessesMemory = true) (h : execute slot i c = .ok () d) :
    i.AccessesAt (addressOperand i) (widthOf i) c d := by
  rw [execute_access hop (fun hcase => ne_quad_of_ok hcase h)] at h
  obtain ⟨v, e, haccess, rfl⟩ := Exec.ok_of_bind_modify h
  obtain ⟨haccesses, hstored⟩ :=
    accesses_of_access hop (fun hcase => by rw [widthOf, hcase]) haccess
  obtain ⟨hregs, hloads⟩ := haccesses.kept
  exact ⟨v, e, haccesses, hstored, leaves_finish hop hregs hloads⟩

/-- A load or store completes exactly where the access that its line shows can be made. Only
a load of a quad through the pipe never does. -/
theorem completes_iff (hop : i.op.accessesMemory = true) :
    (∃ d, execute slot i c = .ok () d) ↔
      (i.op = .pfld → widthOf i ≠ .quad) ∧ i.CanAccess (addressOperand i) (widthOf i) c := by
  constructor
  · rintro ⟨d, h⟩
    obtain ⟨v, e, haccesses, -⟩ := accesses_of_ok hop h
    exact ⟨fun hcase => ne_quad_of_ok hcase h, v, e, haccesses⟩
  · rintro ⟨hquad, haccess⟩
    obtain ⟨v, e, haccess⟩ :=
      access_of_canAccess hop (fun hcase => by rw [widthOf, hcase]) haccess
    rw [execute_access hop hquad, Exec.bind_apply, haccess]
    exact ⟨_, rfl⟩

theorem eq_of_flush (hop : i.op = .flush) (h : execute slot i c = .ok () d) :
    d = if (addressOperand i).increment || i.hidesIncrement then
      c.writeInt i.src2 ((addressOperand i).address c) else c := by
  have hoperand : addressOperand i =
      ⟨i.src2, .inr (i.signedImm16 &&& Width.alignMask .quad).toInt, false⟩ := by
    rw [addressOperand, hop]
  have haddr : (addressOperand i).address c =
      c.readInt i.src2 + (i.signedImm16 &&& Width.alignMask .quad) := by
    rw [hoperand]
    exact congrArg _ BitVec.ofInt_toInt
  have hhides : i.hidesIncrement = i.autoIncrement := by rw [Instruction.hidesIncrement, hop]
  rw [execute, hop] at h
  cases h
  rw [haddr, hoperand, hhides, Bool.false_or]
  rfl

/-! ## Branches -/

/-- A delayed branch that is taken has gone where it decided to go. -/
theorem pc_of_delayed (hdelayed : i.op.isDelayedBranch = true) (h : execute slot i c = .ok () d)
    (htaken : i.taken c = true) : d.pc = i.goal c ∧ d.flags.pcUpdated = true := by
  rw [execute_branch i c slot hdelayed] at h
  cases hplanned : slotPlan? i c with
  | none =>
      have huntaken := (skipsSlot_of_unplanned hdelayed hplanned).2
      rw [htaken] at huntaken
      cases huntaken
  | some p =>
      rw [hplanned] at h
      dsimp only [SlotPlan.run] at h
      split at h
      · cases h
        rw [p.pc_leave, SlotPlan.target_of_planned hplanned, if_pos htaken]
        exact ⟨rfl, p.pcUpdated_leave _⟩
      · cases h

/-- A direct branch that is taken has gone where its line shows. -/
theorem pc_of_direct (hop : i.op.isDirectBranch = true) (h : execute slot i c = .ok () d)
    (htaken : i.branches c = true) : d.pc = targetOf c.pc i ∧ d.flags.pcUpdated = true := by
  cases hcase : i.op <;> rw [hcase] at hop
  -- The delayed branches commit their plans, the others jump at once.
  case br | call | bcT | bncT | bla =>
    have hdelayed : i.op.isDelayedBranch = true := by
      rw [hcase]
      rfl
    have htaken : i.taken c = true := by
      rw [← htaken, Instruction.branches, hcase]
    have hgoal : i.goal c = targetOf c.pc i := by rw [Instruction.goal, targetOf, hcase]
    rw [← hgoal]
    exact pc_of_delayed hdelayed h htaken
  case bc | bnc | bte | btne =>
    rw [Instruction.branches, hcase] at htaken
    rw [execute, hcase] at h
    cases h
    rw [targetOf, hcase]
    exact pc_branchIf c (by simpa using htaken) _
  all_goals cases hop

theorem pc_of_indirect (hop : i.op.isIndirectBranch = true) (h : execute slot i c = .ok () d) :
    d.pc = c.readInt i.src1 ∧ d.flags.pcUpdated = true := by
  have hcases : i.op = .bri ∨ i.op = .calli := by
    revert hop
    generalize i.op = op
    cases op <;> decide
  have hdelayed : i.op.isDelayedBranch = true := by
    rcases hcases with hop | hop <;> rw [hop] <;> rfl
  have htaken : i.taken c = true := by
    rcases hcases with hop | hop <;> rw [Instruction.taken, hop]
  have hgoal : i.goal c = c.readInt i.src1 := by
    rcases hcases with hop | hop <;> rw [Instruction.goal, hop]
  rw [← hgoal]
  exact pc_of_delayed hdelayed h htaken

end Execution

theorem base_addressOperand (i : Instruction) : (addressOperand i).base = i.src2 := by
  unfold addressOperand
  split <;> rfl

theorem increment_of_hidesIncrement {i : Instruction} (h : i.hidesIncrement = true) :
    (addressOperand i).increment = false := by
  unfold Instruction.hidesIncrement at h
  unfold addressOperand
  cases hop : i.op <;> rw [hop] at h <;> first | rfl | cases h

/-- What an instruction does is what its line says. A load or store accesses data of the width
that is shown, at the address that the operand says, and leaves data of that width in the
registers and the load pipe. It completes exactly where such an access can be made; only a
load of a quad through the pipe never does. The base register is written back if `++` is
shown, and beside that for the stores of pixels and flushes that hide it. A branch that is
taken goes to the address or the register that is shown. -/
theorem listing_shows_execution {β : Type} [Bus β] (pc : Word) (i : Instruction) :
    (i.op.accessesMemory = true → ∃ a w,
      shownAddress? (text pc i) = some a ∧ shownWidth? (text pc i) = some w ∧
      a.base = i.src2 ∧ (i.hidesIncrement = true → a.increment = false) ∧
      (∀ slot (c d : Cpu β), execute slot i c = .ok () d → i.AccessesAt a w c d) ∧
      ∀ slot (c : Cpu β), (∃ d, execute slot i c = .ok () d) ↔
        (i.op = .pfld → w ≠ .quad) ∧ i.CanAccess a w c) ∧
    (i.op = .flush → ∃ a,
      shownAddress? (text pc i) = some a ∧
      a.base = i.src2 ∧ (i.hidesIncrement = true → a.increment = false) ∧
      ∀ slot (c d : Cpu β), execute slot i c = .ok () d →
        d = if a.increment || i.hidesIncrement then c.writeInt i.src2 (a.address c) else c) ∧
    (i.op.isDirectBranch = true → ∃ target,
      shownTarget? (text pc i) = some target ∧
      ∀ slot (c d : Cpu β), c.pc = pc → execute slot i c = .ok () d → i.branches c = true →
        d.pc = target ∧ d.flags.pcUpdated = true) ∧
    (i.op.isIndirectBranch = true → ∃ r,
      shownRegister? (text pc i) = some r ∧
      ∀ slot (c d : Cpu β), execute slot i c = .ok () d →
        d.pc = c.readInt r ∧ d.flags.pcUpdated = true) := by
  have hbase := base_addressOperand i
  refine ⟨fun hop => ?accesses, fun hop => ?flushes, fun hop => ?direct, fun hop => ?indirect⟩
  case accesses =>
    obtain ⟨haddress, hwidth⟩ := shown_of_access pc hop
    exact ⟨_, _, haddress, hwidth, hbase, increment_of_hidesIncrement,
      fun _ _ _ => accesses_of_ok hop, fun _ _ => completes_iff hop⟩
  case flushes =>
    exact ⟨_, shown_of_flush pc hop, hbase, increment_of_hidesIncrement,
      fun _ _ _ => eq_of_flush hop⟩
  case direct =>
    refine ⟨_, shown_of_branch pc hop, fun slot c d hpc h htaken => ?_⟩
    rw [← hpc]
    exact pc_of_direct hop h htaken
  case indirect =>
    exact ⟨_, shown_of_indirect pc hop, fun _ _ _ => pc_of_indirect hop⟩

/-- A processor at `0x1000` with a data address in `r6`, and data behind it. -/
def withData : Cpu OpenMemory :=
  (Cpu.before 0x1000#32 [(0x108#32, [0x40490fdb#32])]).writeInt 6 0x100#32

/-- `fld.l 8(r6)++,f4` loads the word at `0x108`, `flush 16(r6)` writes `0x110` back,
`br 0x00001014` goes there, and `bri r6` goes to `0x100`. -/
theorem listing_shows_execution_of_words :
    (∃ a d, shownAddress? (text 0x1000#32 ⟨0x24c4000b#32⟩) = some a ∧
      shownWidth? (text 0x1000#32 ⟨0x24c4000b#32⟩) = some .word ∧
      (⟨0x24c4000b#32⟩ : Instruction).AccessesAt a .word withData d ∧
      d.readInt 6 = 0x108#32 ∧ d.regs.floats.readLane 4 = 0x40490fdb#32) ∧
    (∃ a d, shownAddress? (text 0x1000#32 ⟨0x34c00011#32⟩) = some a ∧ a.increment = false ∧
      d = withData.writeInt 6 (a.address withData) ∧ d.readInt 6 = 0x110#32) ∧
    shownTarget? (text 0x1000#32 ⟨0x68000004#32⟩) = some 0x1014#32 ∧
    ∃ r, shownRegister? (text 0x1000#32 ⟨0x40003000#32⟩) = some r ∧
      withData.readInt r = 0x100#32 := by
  obtain ⟨haccess, -⟩ := listing_shows_execution (β := OpenMemory) 0x1000#32 ⟨0x24c4000b#32⟩
  obtain ⟨-, hflush, -⟩ := listing_shows_execution (β := OpenMemory) 0x1000#32 ⟨0x34c00011#32⟩
  obtain ⟨-, -, hbranch, -⟩ := listing_shows_execution (β := OpenMemory) 0x1000#32 ⟨0x68000004#32⟩
  obtain ⟨-, -, -, hindirect⟩ :=
    listing_shows_execution (β := OpenMemory) 0x1000#32 ⟨0x40003000#32⟩
  refine ⟨?_, ?_, ?_, ?_⟩
  · obtain ⟨a, w, haddress, hwidth, -, -, hran, -⟩ := haccess (by decide)
    have hthrough : ranThrough (execute (pure ()) ⟨0x24c4000b#32⟩ withData) = true := by
      decide +kernel
    have hword : shownWidth? (text 0x1000#32 ⟨0x24c4000b#32⟩) = some .word :=
      (shown_of_access _ (by decide)).2
    obtain rfl : w = .word := Option.some.inj (hwidth.symm.trans hword)
    exact ⟨a, _, haddress, hword, hran (pure ()) _ _ (eq_ok_of_ranThrough hthrough),
      by decide +kernel, by decide +kernel⟩
  · obtain ⟨a, haddress, -, hhidden, hran⟩ := hflush (by decide)
    have hthrough : ranThrough (execute (pure ()) ⟨0x34c00011#32⟩ withData) = true := by
      decide +kernel
    have hwritten := hran (pure ()) _ _ (eq_ok_of_ranThrough hthrough)
    have hhides : (⟨0x34c00011#32⟩ : Instruction).hidesIncrement = true := by decide
    rw [hhides, Bool.or_true, if_pos rfl] at hwritten
    exact ⟨a, _, haddress, hhidden hhides, hwritten, by decide +kernel⟩
  · obtain ⟨target, htarget, hran⟩ := hbranch (by decide)
    have hthrough : ranThrough (execute (pure ()) ⟨0x68000004#32⟩ withData) = true := by
      decide +kernel
    have hgone := (hran (pure ()) withData _ (by decide +kernel) (eq_ok_of_ranThrough hthrough)
      (by decide +kernel)).1
    have hpc : (finalState (execute (pure ()) ⟨0x68000004#32⟩ withData)).pc = 0x1014#32 := by
      decide +kernel
    rw [htarget, ← hgone, hpc]
  · obtain ⟨r, hregister, hran⟩ := hindirect (by decide)
    have hthrough : ranThrough (execute (pure ()) ⟨0x40003000#32⟩ withData) = true := by
      decide +kernel
    have hgone := (hran (pure ()) withData _ (eq_ok_of_ranThrough hthrough)).1
    have hpc : (finalState (execute (pure ()) ⟨0x40003000#32⟩ withData)).pc = 0x100#32 := by
      decide +kernel
    exact ⟨r, hregister, hgone.symm.trans hpc⟩

/-- An instruction writes its address back, and its line does not show it. -/
def Instruction.IncrementsUnseen {β : Type} [Bus β] (i : Instruction) (c : Cpu β) : Prop :=
  ∃ a d, shownAddress? (Listing.text c.pc i) = some a ∧ a.increment = false ∧
    execute (pure ()) i c = .ok () d ∧ d.readInt i.src2 = a.address c ∧
    d.readInt i.src2 ≠ c.readInt i.src2

/-- `pst.d f4,8(r6)` and `flush 16(r6)` may write `r6`, and their lines do not show it. -/
theorem increments_unshown :
    (⟨0x3cc40009#32⟩ : Instruction).IncrementsUnseen withData ∧
      (⟨0x34c00011#32⟩ : Instruction).IncrementsUnseen withData := by
  constructor
  · have hthrough : ranThrough (execute (pure ()) ⟨0x3cc40009#32⟩ withData) = true := by
      decide +kernel
    exact ⟨_, _, (shown_of_access _ (by decide)).1, by decide, eq_ok_of_ranThrough hthrough,
      by decide +kernel, by decide +kernel⟩
  · have hthrough : ranThrough (execute (pure ()) ⟨0x34c00011#32⟩ withData) = true := by
      decide +kernel
    exact ⟨_, _, shown_of_flush _ (by decide), by decide, eq_ok_of_ranThrough hthrough,
      by decide +kernel, by decide +kernel⟩

end I860
