import I860.Proofs.AccessedBits

/-!
# Operands in either byte order

An operand of any width is stored and loaded byte by byte, and all that the byte
order decides is the place of each byte. One order for the store and one for the
load therefore permute the bytes of a number (`byteOf_load_store`): an order
undoes itself, and two different ones turn the bytes around. What does not fit
the width is cut off when a number is stored and zero when it is loaded.

For an operand of one byte there is no order, and a store of any width is as good
as stores of its bytes one after the other (`readByte_storeApart`).
-/

namespace I860

namespace ByteOrder

/-- The order with the other end first. -/
def other : ByteOrder → ByteOrder
  | .little => .big
  | .big => .little

variable (order : ByteOrder)

theorem place_other_place (count k : Nat) :
    order.place count (order.other.place count k) = count - 1 - k := by
  cases order <;> rfl

theorem place_one : order.place 1 0 = 0 := by
  cases order <;> rfl

end ByteOrder

theorem Width.bytes_le (width : Width) : width.bytes ≤ 16 := by
  cases width <;> decide

/-! ## Numbers by their bytes -/

theorem Quad.eq_of_bytes {v w : Quad} (h : ∀ k < 16, byteOf v k = byteOf w k) : v = w := by
  apply BitVec.eq_of_getLsbD_eq
  intro i hi
  have hbyte := congrArg (BitVec.getLsbD · (i % 8)) (h (i / 8) (by omega))
  have hsplit : 8 * (i / 8) + i % 8 = i := by omega
  have hmod : i % 8 < 8 := by omega
  simpa only [getLsbD_byteOf, hsplit, hmod, decide_true, Bool.true_and] using hbyte

/-- Byte by byte, a number without what does not fit a width. -/
theorem byteOf_low (v : Quad) (count k : Nat) :
    byteOf ((v.setWidth (8 * count)).setWidth 128) k = if k < count then byteOf v k else 0#8 := by
  apply BitVec.eq_of_getLsbD_eq
  intro j hj
  rw [getLsbD_byteOf, BitVec.getLsbD_setWidth, BitVec.getLsbD_setWidth]
  split
  · next hlow =>
      have hin : 8 * k + j < 8 * count := by omega
      rw [getLsbD_byteOf, decide_eq_true hin, Bool.true_and]
      by_cases hquad : 8 * k + j < 128
      · rw [decide_eq_true hquad, Bool.true_and]
      · rw [BitVec.getLsbD_of_ge v _ (by omega), Bool.and_false]
  · next hhigh =>
      have hout : ¬8 * k + j < 8 * count := by omega
      rw [decide_eq_false hout, Bool.false_and, Bool.and_false, Bool.and_false,
        BitVec.getLsbD_zero]

theorem byteOf_byte (b : Byte) : byteOf (b.setWidth 128) 0 = b := by
  simp [byteOf]

section Operands

variable {β : Type} [Bus β] [PlainMemory β]

/-- Behind its width an operand is loaded with zeros. -/
theorem byteOf_load_of_ge (order : ByteOrder) (board : β) (addr : PhysAddr) {width : Width}
    {k : Nat} (hk : width.bytes ≤ k) (hquad : k < 16) :
    byteOf (Bus.load order board addr width) k = 0#8 := by
  have hnone : ∀ bytes : List Byte, bytes.length = width.bytes →
      byteOf (ofBytesLowFirst bytes) k = 0#8 := by
    intro bytes hlen
    rw [byteOf_ofBytesLowFirst _ _ hquad, List.getElem?_eq_none (by omega)]
    rfl
  rw [Bus.load, PlainMemory.readBytes_eq]
  cases order with
  | little => exact hnone _ (length_loadEach ..)
  | big => exact hnone _ (by rw [List.length_reverse, length_loadEach])

/-- A byte of what is loaded in one order after it was stored in another. -/
theorem byteOf_load_store (order order' : ByteOrder) (board : β) (addr : PhysAddr) {width : Width}
    (value : Quad) {k : Nat} (hk : k < width.bytes) :
    byteOf (Bus.load order' (Bus.store order board addr width value) addr width) k =
      byteOf value (order.place width.bytes (order'.place width.bytes k)) := by
  have hplace := order'.place_lt hk
  have hsmall := width.bytes_le
  rw [byteOf_load _ _ _ hk, readByte_store, toNat_add_sub addr (by omega), if_pos hplace]

theorem load_store (order : ByteOrder) (board : β) (addr : PhysAddr) (width : Width)
    (value : Quad) :
    Bus.load order (Bus.store order board addr width value) addr width =
      (value.setWidth (8 * width.bytes)).setWidth 128 := by
  apply Quad.eq_of_bytes
  intro k hquad
  rw [byteOf_low]
  split
  · next hk => rw [byteOf_load_store order order board addr value hk, order.place_place hk]
  · next hk => exact byteOf_load_of_ge order _ addr (by omega) hquad

/-! ## One byte after the other -/

theorem load_byte (order : ByteOrder) (board : β) (addr : PhysAddr) :
    Bus.load order board addr .byte = (Bus.readByte board addr).setWidth 128 := by
  have hwidth : Width.bytes .byte = 1 := rfl
  apply Quad.eq_of_bytes
  intro k hquad
  cases k with
  | zero =>
      rw [byteOf_load order board addr (by omega), hwidth, order.place_one, byteOf_byte]
      simp
  | succ k =>
      rw [byteOf_load_of_ge order board addr (by omega) hquad]
      apply BitVec.eq_of_getLsbD_eq
      intro j hj
      rw [getLsbD_byteOf, BitVec.getLsbD_setWidth, BitVec.getLsbD_of_ge _ (8 * (k + 1) + j)
        (by omega)]
      simp

theorem readByte_store_byte (order : ByteOrder) (board : β) (addr a : PhysAddr) (b : Byte) :
    Bus.readByte (Bus.store order board addr .byte (b.setWidth 128)) a =
      if a = addr then b else Bus.readByte board a := by
  have hzero : (a - addr).toNat < 1 ↔ a = addr := by
    rw [← BitVec.toNat_inj]
    bv_omega
  have hwidth : Width.bytes .byte = 1 := rfl
  rw [readByte_store, hwidth]
  split
  · next h =>
      have hdist : (a - addr).toNat = 0 := by omega
      rw [if_pos (hzero.1 h), hdist, order.place_one, byteOf_byte]
  · next h => rw [if_neg (fun e => h (hzero.2 e))]

/-- The bytes of an operand in the order of their addresses, each stored as an
operand of its own. -/
def storeApart (single order : ByteOrder) (board : β) (addr : PhysAddr) (width : Width)
    (value : Quad) : β :=
  (List.range width.bytes).foldl (fun board k =>
    Bus.store single board (addr + BitVec.ofNat 32 k) .byte
      ((byteOf value (order.place width.bytes k)).setWidth 128)) board

theorem readByte_storeApart (single order : ByteOrder) (board : β) (addr a : PhysAddr)
    (width : Width) (value : Quad) :
    Bus.readByte (storeApart single order board addr width value) a =
      Bus.readByte (Bus.store order board addr width value) a := by
  have hupTo : ∀ n ≤ width.bytes,
      Bus.readByte ((List.range n).foldl (fun board k =>
          Bus.store single board (addr + BitVec.ofNat 32 k) .byte
            ((byteOf value (order.place width.bytes k)).setWidth 128)) board) a =
        if (a - addr).toNat < n then byteOf value (order.place width.bytes (a - addr).toNat)
        else Bus.readByte board a := by
    intro n hn
    induction n with
    | zero => simp
    | succ n ih =>
        have hsmall := width.bytes_le
        have hreach : a = addr + BitVec.ofNat 32 n ↔ (a - addr).toNat = n := by
          constructor
          · rintro rfl
            exact toNat_add_sub addr (by omega)
          · intro h
            rw [← h]
            bv_omega
        rw [List.range_succ, List.foldl_append, List.foldl_cons, List.foldl_nil,
          readByte_store_byte, ih (by omega)]
        by_cases hlast : (a - addr).toNat = n
        · rw [if_pos (hreach.2 hlast), if_pos (by omega), hlast]
        · rw [if_neg (fun e => hlast (hreach.1 e))]
          by_cases hbefore : (a - addr).toNat < n
          · rw [if_pos hbefore, if_pos (by omega)]
          · rw [if_neg hbefore, if_neg (by omega)]
  rw [storeApart, hupTo _ (Nat.le_refl _), readByte_store]

/-- What is stored with a width and an order and loaded again in the same way is
the number as far as it fits the width, and in the other order it is that number
with its bytes turned around. The bytes of the operand, and no others, have
changed in memory, by distance from its address and so around the end of memory
too. A byte of a load is what a load of this one byte gives, and a store leaves
the memory that is left by stores of its bytes one after the other, in whichever
order these are made. -/
theorem sized_accesses_round_trip (order : ByteOrder) (board : β) (addr : PhysAddr)
    (width : Width) (value : Quad) :
    let stored := Bus.store order board addr width value
    (Bus.load order stored addr width).toNat = value.toNat % 2 ^ (8 * width.bytes) ∧
      (∀ k < 16, byteOf (Bus.load order.other stored addr width) k =
        if k < width.bytes then byteOf value (width.bytes - 1 - k) else 0#8) ∧
      (∀ a, Bus.readByte stored a =
        if (a - addr).toNat < width.bytes then
          byteOf value (order.place width.bytes (a - addr).toNat)
        else Bus.readByte board a) ∧
      ∀ single : ByteOrder,
        (∀ k < width.bytes, Bus.load single board (addr + BitVec.ofNat 32 k) .byte =
          (byteOf (Bus.load order board addr width) (order.place width.bytes k)).setWidth 128) ∧
        ∀ a, Bus.readByte (storeApart single order board addr width value) a =
          Bus.readByte stored a := by
  intro stored
  refine ⟨?_, fun k hquad => ?_, fun a => readByte_store .., fun single => ⟨fun k hk => ?_,
    fun a => readByte_storeApart ..⟩⟩
  · have hsmall := width.bytes_le
    have hbound : value.toNat % 2 ^ (8 * width.bytes) < 2 ^ 128 :=
      Nat.lt_of_le_of_lt (Nat.mod_le _ _) value.isLt
    rw [load_store, BitVec.toNat_setWidth, BitVec.toNat_setWidth, Nat.mod_eq_of_lt hbound]
  · split
    · next hk =>
        rw [byteOf_load_store order order.other board addr value hk, order.place_other_place]
    · next hk => exact byteOf_load_of_ge _ _ _ (by omega) hquad
  · rw [load_byte, byteOf_load order board addr (order.place_lt hk), order.place_place hk]

/-- A double around the end of blank memory. -/
theorem sized_accesses_round_trip_of_wrapped :
    let stored := Bus.store .big OpenMemory.blank 0xfffffffc#32 .double 0x991122334455667788#128
    (Bus.load .big stored 0xfffffffc#32 .double).toNat = 0x1122334455667788 ∧
      Bus.readByte stored 0x3#32 = 0x88#8 ∧ Bus.readByte stored 0x4#32 = 0#8 ∧
      byteOf (Bus.load .little stored 0xfffffffc#32 .double) 0 = 0x11#8 := by
  intro stored
  obtain ⟨hloaded, hturned, hbytes, -⟩ := sized_accesses_round_trip .big OpenMemory.blank
    0xfffffffc#32 .double 0x991122334455667788#128
  exact ⟨hloaded.trans (by decide), (hbytes 0x3#32).trans (by decide),
    (hbytes 0x4#32).trans (by decide), (hturned 0 (by decide)).trans (by decide)⟩

end Operands

end I860
