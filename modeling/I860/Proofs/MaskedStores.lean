import I860.Proofs.Frames

/-!
# Stores of some bytes of a double

A store that selects bytes of a double by a mask has two ways to memory: the one
of all stores if the mask selects everything, and else a loop over the bytes that
finds the place of each by itself. Neither can be told from the other. Each byte
of the operand gets what a store of the whole double puts there, if its bit of
the mask is set, and else keeps what it has. The bits of a mask count bytes of the
number and not of memory, so in big-endian order the first of them is for the last
place.

Both stores ask the same questions before they write, and so they fail together,
with the same trap and in the same state.
-/

namespace I860

variable {β : Type} [Bus β]

theorem writeMem_eq (vaddr : VirtAddr) (width : Width) (value : Quad) (c : Cpu β) :
    writeMem vaddr width value c =
      match checkData vaddr width .write c with
      | .ok paddr d => .ok () (d.deposit paddr (.operand width value))
      | .error fault d => .error fault d := by
  rw [writeMem, Exec.bind_apply]
  cases checkData vaddr width .write c <;> rfl

theorem writeMasked_eq (vaddr : VirtAddr) (value : Double) (mask : Byte) (c : Cpu β) :
    writeMasked vaddr value mask c =
      match checkData vaddr .double .write c with
      | .ok paddr d => .ok () (d.deposit paddr (.selected value mask))
      | .error fault d => .error fault d := by
  rw [writeMasked, Exec.bind_apply]
  cases checkData vaddr .double .write c <;> rfl

variable [PlainMemory β]

/-- Byte `k` of memory from the start of a double, after the store of the double. -/
theorem Deposit.readByte_put_operand (order : ByteOrder) (board : β) (paddr : PhysAddr)
    (value : Double) {k : Nat} (hk : k < 8) :
    Bus.readByte (put order board paddr (.operand .double (value.setWidth 128)))
        (paddr + BitVec.ofNat 32 k) = byteOf (value.setWidth 128) (order.place 8 k) := by
  have hdist := toNat_add_sub paddr (k := k) (by omega)
  rw [put, readByte_store, hdist]
  exact if_pos hk

/-- The same byte, after the store of the bytes that a mask selects. -/
theorem Deposit.readByte_put_selected (order : ByteOrder) (board : β) (paddr : PhysAddr)
    (value : Double) (mask : Byte) {k : Nat} (hk : k < 8) :
    Bus.readByte (put order board paddr (.selected value mask)) (paddr + BitVec.ofNat 32 k) =
      if mask.getLsbD (order.place 8 k) then byteOf (value.setWidth 128) (order.place 8 k)
      else Bus.readByte board (paddr + BitVec.ofNat 32 k) := by
  have hdist := toNat_add_sub paddr (k := k) (by omega)
  have hselects : order.Selects mask k ↔ mask.getLsbD (order.place 8 k) = true :=
    ⟨And.right, fun h => ⟨hk, h⟩⟩
  rw [put, readByte_masked, hdist]
  simp only [hselects]

/-- A store of the bytes of a double that a mask selects fails if and only if the
store of the double fails, and then in the same way. Otherwise they differ in
memory alone. Byte `k` of the operand is that of the number which the byte order
puts there: the store of the double stores it, and the other one stores it if its
bit of the mask is set, and leaves the byte of memory as the translation of the
address has left it if not. So it is with the bytes that are no part of the operand.
The loop over the bytes is as good as the store of the double for a mask that
selects them all. -/
theorem masked_store_merges (c : Cpu β) (vaddr : VirtAddr) (value : Double) (mask : Byte) :
    let full := writeMem vaddr .double (value.setWidth 128) c
    let masked := writeMasked vaddr value mask c
    (∃ fault d, full = .error fault d ∧ masked = .error fault d) ∨
      ∃ (paddr : PhysAddr) (d : Cpu β) (whole merged : β),
        (c.translated vaddr .write).1 = .ok paddr ∧ d = c.translating vaddr .write ∧
          full = .ok () { d with board := whole } ∧ masked = .ok () { d with board := merged } ∧
          (∀ k < 8, Bus.readByte whole (paddr + BitVec.ofNat 32 k) =
            (value >>> (8 * c.order.place 8 k)).setWidth 8) ∧
          (∀ k < 8, Bus.readByte merged (paddr + BitVec.ofNat 32 k) =
            if mask.getLsbD (c.order.place 8 k) then
              Bus.readByte whole (paddr + BitVec.ofNat 32 k)
            else Bus.readByte d.board (paddr + BitVec.ofNat 32 k)) ∧
          (∀ a, 8 ≤ (a - paddr).toNat → Bus.readByte merged a = Bus.readByte d.board a) ∧
          (∀ a, Bus.readByte (storeSelected c.order d.board paddr value 0xff#8) a =
            Bus.readByte whole a) := by
  intro full masked
  have hfull : full = _ := writeMem_eq vaddr .double (value.setWidth 128) c
  have hmasked : masked = _ := writeMasked_eq vaddr value mask c
  cases hchecked : checkData vaddr .double .write c with
  | error fault d =>
      rw [hchecked] at hfull hmasked
      exact .inl ⟨fault, d, hfull, hmasked⟩
  | ok paddr d =>
      rw [hchecked] at hfull hmasked
      obtain ⟨htranslated, rfl⟩ := translated_of_checkData hchecked
      refine .inr ⟨paddr, _, _, _, htranslated, rfl, hfull, hmasked, ?_, ?_, ?_, ?_⟩
      · intro k hk
        have horder : (c.translating vaddr .write).order = c.order := rfl
        rw [horder, Deposit.readByte_put_operand c.order _ paddr value hk,
          byteOf_double value (c.order.place_lt hk)]
      · intro k hk
        have horder : (c.translating vaddr .write).order = c.order := rfl
        rw [horder, Deposit.readByte_put_selected c.order _ paddr value mask hk,
          Deposit.readByte_put_operand c.order _ paddr value hk]
      · intro a hfar
        exact Deposit.readByte_put _ _ _ hfar
      · intro a
        rw [readByte_storeSelected, ← readByte_masked, if_pos rfl]
        rfl

/-- A store of the first and the last byte of a double to blank memory, in
little-endian order. -/
theorem masked_store_merges_of_ends :
    let masked := writeMasked 0x100#32 0x1122334455667788#64 0x81#8 (Cpu.before 0x1000#32 [])
    ranThrough masked = true ∧
      ∀ k < 8, Bus.readByte (finalState masked).board (0x100#32 + BitVec.ofNat 32 k) =
        if k = 0 then 0x88#8 else if k = 7 then 0x11#8 else 0#8 := by
  intro masked
  have hran : ranThrough masked = true := by decide +kernel
  refine ⟨hran, ?_⟩
  rcases masked_store_merges (Cpu.before 0x1000#32 []) 0x100#32 0x1122334455667788#64 0x81#8 with
    ⟨fault, d, -, hmasked⟩ | ⟨paddr, d, whole, merged, hpaddr, rfl, -, hmasked, hwhole, hmerged, -⟩
  · have hfailed : masked = .error fault d := hmasked
    rw [hfailed] at hran
    cases hran
  · have hstored : masked = .ok () _ := hmasked
    have hphysical : (Cpu.translated (Cpu.before 0x1000#32 []) 0x100#32 .write).1 =
        .ok 0x100#32 := by
      rfl
    rw [hphysical] at hpaddr
    cases hpaddr
    intro k hk
    rw [hstored]
    refine (hmerged k hk).trans ?_
    rw [hwhole k hk]
    revert k
    decide +kernel

end I860
