import I860.Proofs.PageTables

/-!
# Addresses, operands and pages

The sizes of operands and pages are powers of two, so a mask takes an address
apart into a start and a distance: what is left under one mask is the remainder
(`Width.toNat_and_not_alignMask`, `VirtAddr.toNat_pageOffset`), and what is left
under the other is the rest (`toNat_and_not`). From then on addresses are
numbers. An aligned operand has room in its page (`Width.room`), and adding a
distance for which there is room changes the page offset and nothing else.
-/

namespace I860

/-- What a mask drops, if what it keeps is a remainder. -/
theorem toNat_and_not {a m : Word} {n : Nat} (h : (a &&& m).toNat = a.toNat % n) :
    (a &&& ~~~m).toNat = a.toNat - a.toNat % n := by
  have hapart : (a &&& ~~~m) &&& (a &&& m) = 0#32 := by
    apply BitVec.eq_of_getLsbD_eq
    intro i hi
    simp only [BitVec.getLsbD_and, BitVec.getLsbD_not, BitVec.getLsbD_zero]
    cases m.getLsbD i <;> simp
  have hwhole : (a &&& ~~~m) + (a &&& m) = a := by
    rw [BitVec.add_eq_or_of_and_eq_zero _ _ hapart, ← BitVec.and_or_distrib_left,
      BitVec.or_comm, BitVec.or_not_self, BitVec.and_allOnes]
  have hsum := congrArg BitVec.toNat hwhole
  rw [BitVec.toNat_add, h] at hsum
  have hle : (a &&& ~~~m).toNat ≤ a.toNat := by
    rw [BitVec.toNat_and]
    exact Nat.and_le_left
  have hrest : a.toNat % n ≤ a.toNat := Nat.mod_le _ _
  have hlt := a.isLt
  omega

/-! ## Pages -/

namespace VirtAddr

variable {a : VirtAddr} {k : Nat}

theorem toNat_pageOffset (a : VirtAddr) : a.pageOffset.toNat = a.toNat % 4096 := by
  rw [pageOffset, BitVec.toNat_and]
  exact Nat.and_two_pow_sub_one_eq_mod a.toNat 12

theorem toNat_pageNumber (a : VirtAddr) : a.pageNumber.toNat = a.toNat / 4096 := by
  rw [pageNumber, BitVec.toNat_ushiftRight, Nat.shiftRight_eq_div_pow]

/-- Further on in the same page. -/
theorem toNat_add (h : a.toNat % 4096 + k < 4096) :
    (a + BitVec.ofNat 32 k).toNat = a.toNat + k := by
  have hlt := a.isLt
  rw [BitVec.toNat_add, BitVec.toNat_ofNat]
  omega

theorem pageNumber_add (h : a.toNat % 4096 + k < 4096) :
    pageNumber (a + BitVec.ofNat 32 k) = a.pageNumber := by
  apply BitVec.eq_of_toNat_eq
  rw [toNat_pageNumber, toNat_pageNumber, toNat_add h]
  omega

theorem toNat_pageOffset_add (h : a.toNat % 4096 + k < 4096) :
    (pageOffset (a + BitVec.ofNat 32 k)).toNat = a.pageOffset.toNat + k := by
  rw [toNat_pageOffset, toNat_pageOffset, toNat_add h]
  omega

end VirtAddr

theorem toNat_and_pageFrameMask (a : Word) :
    (a &&& pageFrameMask).toNat = a.toNat - a.toNat % 4096 := by
  have hmask : pageFrameMask = ~~~pageOffsetMask := rfl
  rw [hmask]
  exact toNat_and_not (VirtAddr.toNat_pageOffset a)

theorem and_pageFrameMask_and_pageOffsetMask (a : Word) :
    a &&& pageFrameMask &&& pageOffsetMask = 0#32 := by
  have hmasks : pageFrameMask &&& pageOffsetMask = 0#32 := rfl
  rw [BitVec.and_assoc, hmasks, BitVec.and_zero]

theorem PhysAddr.toNat_ofFrame (frame offset : Word) :
    (ofFrame frame offset).toNat = (frame &&& pageFrameMask).toNat + offset.toNat % 4096 := by
  have hoffset : (offset &&& pageOffsetMask).toNat = offset.toNat % 4096 :=
    VirtAddr.toNat_pageOffset offset
  have hapart : (frame &&& pageFrameMask) &&& (offset &&& pageOffsetMask) = 0#32 := by
    rw [BitVec.and_comm offset, ← BitVec.and_assoc, and_pageFrameMask_and_pageOffsetMask,
      BitVec.zero_and]
  have hframe := toNat_and_pageFrameMask frame
  have hlt := frame.isLt
  rw [ofFrame, ← BitVec.add_eq_or_of_and_eq_zero _ _ hapart, BitVec.toNat_add, hoffset]
  omega

theorem PageMapping.address_add (t : PageMapping) {vaddr : VirtAddr} {k : Nat}
    (h : vaddr.toNat % 4096 + k < 4096) :
    t.address (vaddr + BitVec.ofNat 32 k) = t.address vaddr + BitVec.ofNat 32 k := by
  have hoffset := VirtAddr.toNat_pageOffset_add h
  rw [VirtAddr.toNat_pageOffset vaddr] at hoffset
  apply BitVec.eq_of_toNat_eq
  rw [address, address, BitVec.toNat_add, PhysAddr.toNat_ofFrame, PhysAddr.toNat_ofFrame,
    hoffset, VirtAddr.toNat_pageOffset, BitVec.toNat_ofNat]
  have hframe := toNat_and_pageFrameMask t.frame
  have htlt := t.frame.isLt
  omega

/-! ## Operands -/

namespace Width

theorem bytes_pos (w : Width) : 0 < w.bytes := by
  cases w <;> decide

/-- An aligned operand does not reach beyond its page. -/
theorem room (w : Width) {a k : Nat} (haligned : a % w.bytes = 0) (hk : k < w.bytes) :
    a % 4096 + k < 4096 := by
  cases w with
  | byte | half | word | double | quad =>
      simp only [bytes] at haligned hk
      omega

theorem toNat_and_not_alignMask (w : Width) (a : Word) :
    (a &&& ~~~w.alignMask).toNat = a.toNat % w.bytes := by
  rw [alignMask, BitVec.not_not, BitVec.toNat_and]
  cases w with
  | byte => exact Nat.and_two_pow_sub_one_eq_mod a.toNat 0
  | half => exact Nat.and_two_pow_sub_one_eq_mod a.toNat 1
  | word => exact Nat.and_two_pow_sub_one_eq_mod a.toNat 2
  | double => exact Nat.and_two_pow_sub_one_eq_mod a.toNat 3
  | quad => exact Nat.and_two_pow_sub_one_eq_mod a.toNat 4

theorem and_not_alignMask_eq_zero_iff (w : Width) (a : Word) :
    a &&& ~~~w.alignMask = 0#32 ↔ a.toNat % w.bytes = 0 := by
  rw [← w.toNat_and_not_alignMask, ← BitVec.toNat_inj]
  rfl

theorem toNat_and_alignMask (w : Width) (a : Word) :
    (a &&& w.alignMask).toNat = a.toNat - a.toNat % w.bytes := by
  have hrest := w.toNat_and_not_alignMask a
  rw [alignMask, BitVec.not_not] at hrest
  exact toNat_and_not hrest

/-- Two addresses agree under the alignment mask if and only if the operand at
the first one reaches the second one. -/
theorem and_alignMask_eq_iff (w : Width) {a : Word} (haligned : a.toNat % w.bytes = 0)
    (b : Word) :
    a &&& w.alignMask = b &&& w.alignMask ↔ ∃ k < w.bytes, a + BitVec.ofNat 32 k = b := by
  have hlt := b.isLt
  rw [← BitVec.toNat_inj, w.toNat_and_alignMask, w.toNat_and_alignMask, haligned,
    Nat.sub_zero]
  constructor
  · intro h
    have hrest : b.toNat % w.bytes ≤ b.toNat := Nat.mod_le _ _
    refine ⟨b.toNat % w.bytes, Nat.mod_lt _ w.bytes_pos, ?_⟩
    apply BitVec.eq_of_toNat_eq
    rw [BitVec.toNat_add, BitVec.toNat_ofNat]
    omega
  · rintro ⟨k, hk, rfl⟩
    have hroom := w.room haligned hk
    rw [VirtAddr.toNat_add hroom, Nat.add_mod, haligned, Nat.zero_add, Nat.mod_mod,
      Nat.mod_eq_of_lt hk]
    omega

end Width

end I860
