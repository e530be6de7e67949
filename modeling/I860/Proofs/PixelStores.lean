import I860.Proofs.GraphicsUnit
import I860.Proofs.MaskedStores

/-!
# Stores of pixels

A store of pixels takes a double from a register and writes those of its pixels
whose bit of PM is set. What it writes to memory is compared with another
instruction, the store of the whole double that has the same operands
(`Instruction.fullStore`). Where one of them gets through so does the other, and a
pixel that is written gets the bytes that the other one gives it.

The pixels that are not written stay as they are, with one exception. To translate
the address of the operand is to set accessed bits, and nothing keeps a program
from storing pixels to its page tables.
-/

namespace I860

namespace Graphics

/-- The bytes of a pixel are all written or all left alone. -/
theorem getLsbD_storeMask (size : PixelSize) (pm : Byte) {b : Nat} (hb : b < 8) :
    (storeMask size pm).getLsbD b = pm.getLsbD (b / (8 / size.perDouble)) := by
  have hpixel : ∀ i < size.perDouble, (BitVec.ofNat 8 (2 ^ (8 / size.perDouble) - 1) <<<
      (8 / size.perDouble * i)).getLsbD b = decide (i = b / (8 / size.perDouble)) := by
    cases size <;> revert b <;> decide
  have hin : b / (8 / size.perDouble) < size.perDouble := by
    cases size <;> simp only [PixelSize.perDouble] <;> omega
  -- A pixel that is not selected adds nothing to the mask.
  have hfold : storeMask size pm = (List.range size.perDouble).foldl (fun acc i => acc |||
      if pm.getLsbD i then BitVec.ofNat 8 (2 ^ (8 / size.perDouble) - 1) <<<
        (8 / size.perDouble * i) else 0#8) 0#8 := by
    unfold storeMask
    dsimp only
    congr 1
    funext acc i
    split
    · rfl
    · rw [BitVec.or_zero]
  rw [hfold, getLsbD_foldl_or, BitVec.getLsbD_zero, Bool.false_or,
    any_range_of_one (b / (8 / size.perDouble)) ?_, decide_eq_true hin, Bool.true_and]
  · cases hset : pm.getLsbD (b / (8 / size.perDouble)) with
    | true => simp [hpixel _ hin]
    | false => simp
  · intro i hi hne
    cases hset : pm.getLsbD i with
    | true => simp [hpixel i hi, hne]
    | false => simp

end Graphics

/-! ## The store of the whole double -/

namespace Instruction

/-- The store of a whole double that has the operands of a store of pixels. -/
def fullStore (i : Instruction) : Instruction := ⟨0x28000000#32 ||| (i.raw &&& 0x07fffff9#32)⟩

variable (i : Instruction)

theorem getLsbD_fullStore {b : Nat} (hlow : 3 ≤ b) (hhigh : b ≤ 26) :
    i.fullStore.raw.getLsbD b = i.raw.getLsbD b := by
  have hmasks : ∀ b < 27, 3 ≤ b → (0x28000000#32).getLsbD b = false ∧
      (0x07fffff9#32).getLsbD b = true := by
    decide
  obtain ⟨hset, hkept⟩ := hmasks b (by omega) hlow
  rw [fullStore, BitVec.getLsbD_or, BitVec.getLsbD_and, hset, hkept, Bool.false_or, Bool.and_true]

theorem op_fullStore : i.fullStore.op = .fst := by
  have hprimary : i.fullStore.raw >>> 26 = 0xa#32 ||| (i.raw >>> 26 &&& 1#32) := by
    rw [fullStore, BitVec.ushiftRight_or_distrib, BitVec.ushiftRight_and_distrib]
    rfl
  -- Bit 26 is as it was, so it is one of two opcodes.
  have hbit : i.fullStore.primary = 0xa ∨ i.fullStore.primary = 0xb := by
    rw [primary, hprimary, BitVec.and_one_eq_setWidth_ofBool_getLsbD]
    cases (i.raw >>> 26).getLsbD 0 with
    | true => exact .inr rfl
    | false => exact .inl rfl
  rcases hbit with h | h <;> simp [op, h, floatEscape, coreEscape, Op.ofPrimary]

theorem regField_fullStore {low : Nat} (hlow : 3 ≤ low) (hhigh : low ≤ 21) :
    i.fullStore.regField low = i.regField low := by
  have hbits : i.fullStore.raw.extractLsb' low 5 = i.raw.extractLsb' low 5 := by
    apply BitVec.eq_of_getLsbD_eq
    intro b hb
    rw [BitVec.getLsbD_extractLsb', BitVec.getLsbD_extractLsb',
      i.getLsbD_fullStore (by omega) (by omega)]
  simp only [regField, hbits]

theorem autoIncrement_fullStore : i.fullStore.autoIncrement = i.autoIncrement := by
  simp [autoIncrement, fullStore]

end Instruction

theorem getLsbD_signExtendLow (v : Word) {b : Nat} (hb : b < 32) :
    (signExtendLow v 16).getLsbD b = if b < 16 then v.getLsbD b else v.getLsbD 15 := by
  rw [signExtendLow, BitVec.getLsbD_sshiftRight]
  split
  · next hlow =>
      have hin : b < 16 := by omega
      have hinWord : ¬32 ≤ b := by omega
      have hfilled : ¬16 + b < 16 := by omega
      have hmoved : 16 + b < 32 := by omega
      simp [hb, hin, hinWord, hfilled, hmoved]
  · next hhigh =>
      have hout : ¬b < 16 := by omega
      simp [hb, hout, BitVec.msb_eq_getLsbD_last]

namespace Execute

theorem floatWidth_fullStore (i : Instruction) : floatWidth i.fullStore = .double := by
  simp [floatWidth, Instruction.fullStore]

theorem effectiveAddr_fullStore {β : Type} (c : Cpu β) (i : Instruction) :
    effectiveAddr c i.fullStore .double = effectiveAddr c i .double := by
  have himm : i.fullStore.signedImm16 &&& Width.alignMask .double =
      i.signedImm16 &&& Width.alignMask .double := by
    have halign : ∀ b < 32, (Width.alignMask .double).getLsbD b = decide (3 ≤ b) := by decide
    apply BitVec.eq_of_getLsbD_eq
    intro b hb
    rw [BitVec.getLsbD_and, BitVec.getLsbD_and, halign b hb, Instruction.signedImm16,
      Instruction.signedImm16, getLsbD_signExtendLow _ hb, getLsbD_signExtendLow _ hb]
    by_cases hlow : 3 ≤ b
    · split
      · rw [i.getLsbD_fullStore hlow (by omega)]
      · rw [i.getLsbD_fullStore (by omega) (by omega)]
    · simp [hlow]
  have himmediate : i.fullStore.hasImmediate = i.hasImmediate :=
    i.getLsbD_fullStore (by omega) (by omega)
  have hsrc1 : i.fullStore.src1 = i.src1 := i.regField_fullStore (by omega) (by omega)
  have hsrc2 : i.fullStore.src2 = i.src2 := i.regField_fullStore (by omega) (by omega)
  rw [effectiveAddr, effectiveAddr, himm, himmediate, hsrc1, hsrc2]

theorem autoIncrement_fullStore {β : Type} (c : Cpu β) (i : Instruction) (addr : VirtAddr) :
    autoIncrement c i.fullStore addr = autoIncrement c i addr := by
  have hsrc2 : i.fullStore.src2 = i.src2 := i.regField_fullStore (by omega) (by omega)
  rw [autoIncrement, autoIncrement, i.autoIncrement_fullStore, hsrc2]

end Execute

/-! ## What stores do -/

section Run

variable {β : Type}

theorem Execute.board_autoIncrement (c : Cpu β) (i : Instruction) (addr : VirtAddr) :
    (autoIncrement c i addr).board = c.board := by
  unfold autoIncrement
  split <;> rfl

theorem Execute.psr_autoIncrement (c : Cpu β) (i : Instruction) (addr : VirtAddr) :
    (autoIncrement c i addr).control.psr = c.control.psr := by
  unfold autoIncrement
  split <;> rfl

variable [Bus β]

theorem execute_fullStore (i : Instruction) (slot : Exec β Unit) (c : Cpu β) :
    execute slot i.fullStore c =
      match checkData (Execute.effectiveAddr c i .double) .double .write c with
      | .ok paddr d =>
          .ok () (Execute.autoIncrement
            (d.deposit paddr (.operand .double ((c.regs.floats.readPair i.dest).setWidth 128))) i
            (Execute.effectiveAddr c i .double))
      | .error fault d => .error fault d := by
  have hdest : i.fullStore.dest = i.dest := i.regField_fullStore (by omega) (by omega)
  unfold execute
  rw [i.op_fullStore]
  dsimp only
  unfold Execute.fst
  rw [Exec.bind_apply, Exec.get_apply]
  dsimp only
  rw [Exec.bind_apply, Execute.floatWidth_fullStore, Execute.effectiveAddr_fullStore, writeMem_eq,
    hdest]
  cases checkData (Execute.effectiveAddr c i .double) .double .write c with
  | ok paddr d => exact congrArg (EStateM.Result.ok ()) (Execute.autoIncrement_fullStore ..)
  | error fault d => rfl

theorem execute_pstD {i : Instruction} (hop : i.op = .pstD) (slot : Exec β Unit) (c : Cpu β) :
    execute slot i c =
      match checkData (Execute.effectiveAddr c i .double) .double .write c with
      | .ok paddr d =>
          let psr := c.control.psr
          let stored := d.deposit paddr (.selected (c.regs.floats.readPair i.dest)
            (Graphics.storeMask psr.pixelSize psr.pm))
          .ok () (Execute.autoIncrement
            (stored.setPsr
              { d.control.psr with pm := d.control.psr.pm >>> psr.pixelSize.perDouble }) i
            (Execute.effectiveAddr c i .double))
      | .error fault d => .error fault d := by
  unfold execute
  rw [hop]
  dsimp only
  unfold Execute.pstD
  rw [Exec.bind_apply, Exec.get_apply]
  dsimp only
  rw [Exec.bind_apply, writeMasked_eq]
  cases checkData (Execute.effectiveAddr c i .double) .double .write c with
  | ok paddr d => rfl
  | error fault d => rfl

namespace Executed

variable (e : Executed β)

/-- The virtual address of the operand of a store of a double. -/
def storeAddr : VirtAddr := Execute.effectiveAddr e.before e.word .double

/-- The operand of a store is not among the accessed bits by which it is found. -/
def ApartFromTables : Prop :=
  ∀ paddr, (e.before.translated e.storeAddr .write).1 = .ok paddr →
    e.before.control.dirbase.ate = true → ∀ dist < 8,
      paddr + BitVec.ofNat 32 dist ≠
        e.before.order.accessedByte (e.before.pathOf e.storeAddr).directoryAddr ∧
      paddr + BitVec.ofNat 32 dist ≠
        e.before.order.accessedByte (e.before.pathOf e.storeAddr).tableAddr

/-- Of its operand, which holds pixels of the given size, a store writes certain ones and
leaves the others alone. A pixel that it writes gets the bytes that a store of the
whole double gives it from the same state. -/
def StoresPixels (size : PixelSize) (pixels : Nat → Prop) : Prop :=
  ∃ (paddr : PhysAddr) (full : Cpu β), (e.before.translated e.storeAddr .write).1 = .ok paddr ∧
    (∀ slot, execute slot e.word.fullStore e.before = .ok () full) ∧
    (∀ dist < 8, pixels (e.before.order.place 8 dist / (8 / size.perDouble)) →
      Bus.readByte e.after.board (paddr + BitVec.ofNat 32 dist) =
        Bus.readByte full.board (paddr + BitVec.ofNat 32 dist)) ∧
    (∀ dist < 8, ¬pixels (e.before.order.place 8 dist / (8 / size.perDouble)) →
      Bus.readByte e.after.board (paddr + BitVec.ofNat 32 dist) =
        Bus.readByte e.before.board (paddr + BitVec.ofNat 32 dist)) ∧
    ∀ a, 8 ≤ (a - paddr).toNat → Bus.readByte e.after.board a = Bus.readByte full.board a

variable {e} {size : PixelSize}

/-- Only the pixels that there are matter. -/
theorem StoresPixels.congr {P Q : Nat → Prop} (h : e.StoresPixels size P)
    (hiff : ∀ i < size.perDouble, P i ↔ Q i) : e.StoresPixels size Q := by
  obtain ⟨paddr, full, htranslated, hfull, hwritten, hkept, hbeyond⟩ := h
  have hpixel : ∀ dist < 8,
      e.before.order.place 8 dist / (8 / size.perDouble) < size.perDouble := by
    intro dist hdist
    have hplace := e.before.order.place_lt hdist
    cases size <;> simp only [PixelSize.perDouble] <;> omega
  refine ⟨paddr, full, htranslated, hfull, fun dist hdist hq => ?_, fun dist hdist hq => ?_,
    hbeyond⟩
  · exact hwritten dist hdist ((hiff _ (hpixel dist hdist)).2 hq)
  · exact hkept dist hdist fun hp => hq ((hiff _ (hpixel dist hdist)).1 hp)

variable [PlainMemory β]

/-- What a store of pixels writes, and what it makes of PM. -/
theorem Ran.store (h : e.Ran) (hop : e.word.op = .pstD)
    (hsize : e.before.control.psr.pixelSize = size) (hapart : e.ApartFromTables) :
    e.StoresPixels size (fun i => e.before.control.psr.pm.getLsbD i = true) ∧
      e.after.control.psr.pm = e.before.control.psr.pm >>> size.perDouble := by
  obtain ⟨slot, ran⟩ := h
  obtain ⟨i, c, d⟩ := e
  dsimp only at ran hop hsize
  have hfull := fun slot => execute_fullStore i slot c
  rw [execute_pstD hop] at ran
  cases hchecked : checkData (Execute.effectiveAddr c i .double) .double .write c with
  | error fault m =>
      rw [hchecked] at ran
      cases ran
  | ok paddr m =>
      simp only [hchecked] at ran hfull
      obtain ⟨htranslated, rfl⟩ := translated_of_checkData hchecked
      -- Both boards are that of the translation, each with a deposit of its own.
      let addr := Execute.effectiveAddr c i .double
      let value := c.regs.floats.readPair i.dest
      let mask := Graphics.storeMask c.control.psr.pixelSize c.control.psr.pm
      have hboard : d.board =
          (Deposit.selected value mask).put c.order (c.translating addr .write).board paddr := by
        cases ran
        exact Execute.board_autoIncrement ..
      have hpm : d.control.psr.pm = c.control.psr.pm >>> size.perDouble := by
        cases ran
        rw [Execute.psr_autoIncrement, ← hsize]
        rfl
      have hwhole : (Execute.autoIncrement ((c.translating addr .write).deposit paddr
          (.operand .double (value.setWidth 128))) i addr).board =
          (Deposit.operand .double (value.setWidth 128)).put c.order
            (c.translating addr .write).board paddr :=
        Execute.board_autoIncrement ..
      have hmask : ∀ dist < 8, mask.getLsbD (c.order.place 8 dist) =
          c.control.psr.pm.getLsbD (c.order.place 8 dist / (8 / size.perDouble)) := by
        intro dist hdist
        rw [← hsize]
        exact Graphics.getLsbD_storeMask _ _ (c.order.place_lt hdist)
      refine ⟨⟨paddr, _, htranslated, hfull, ?written, ?kept, ?beyond⟩, hpm⟩
      case written =>
        intro dist hdist hpixel
        show Bus.readByte d.board _ = Bus.readByte (Execute.autoIncrement ..).board _
        rw [hboard, hwhole, Deposit.readByte_put_selected _ _ _ _ _ hdist, hmask dist hdist,
          if_pos hpixel, Deposit.readByte_put_operand _ _ _ _ hdist]
      case kept =>
        intro dist hdist hpixel
        show Bus.readByte d.board _ = Bus.readByte c.board _
        rw [hboard, Deposit.readByte_put_selected _ _ _ _ _ hdist, hmask dist hdist,
          if_neg hpixel]
        rcases c.translated_marked addr .write (paddr + BitVec.ofNat 32 dist) with hsame | hmarked
        · exact hsame
        · obtain ⟨-, hate, hentry⟩ := hmarked
          obtain ⟨hdirectory, htable⟩ := hapart paddr htranslated hate dist hdist
          exact absurd hentry (by simp only [not_or]; exact ⟨hdirectory, htable⟩)
      case beyond =>
        intro a hfar
        show Bus.readByte d.board _ = Bus.readByte (Execute.autoIncrement ..).board _
        rw [hboard, hwhole, Deposit.readByte_put (.selected value mask) _ _ hfar,
          Deposit.readByte_put (.operand .double _) _ _ hfar]

end Executed

end Run

end I860
