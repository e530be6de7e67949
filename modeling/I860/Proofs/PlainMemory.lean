import I860.Board.OpenMemory

/-!
# Boards that are plain memory

Statements about what an instruction leaves in memory are made over boards
that behave as memory does: a byte that was written is read back, no other
byte changes, and an access to several bytes is the same as one access to
each of them. `PlainMemory` says this of a board, and `OpenMemory` is the
board that shows it can be had.

From the law for one byte follows what a store of any length does to any
byte, `readByte_storeEach`, with addresses that wrap. The bytes of a word are
then looked at one at a time: `byteOf` is byte `k` of a number, and joining
bytes to a number and splitting it again are inverse byte by byte.
-/

namespace I860

/-- A board whose bytes are memory. -/
class PlainMemory (β : Type) [Bus β] : Prop where
  readByte_writeByte : ∀ (board : β) (a a' : PhysAddr) (b : Byte),
    Bus.readByte (Bus.writeByte board a b) a' =
      if a = a' then b else Bus.readByte board a'
  readBytes_eq : ∀ (board : β) (a : PhysAddr) (count : Nat),
    Bus.readBytes board a count = loadEach (Bus.readByte board) a count
  writeBytes_eq : ∀ (board : β) (a : PhysAddr) (bytes : List Byte),
    Bus.writeBytes board a bytes = storeEach Bus.writeByte board a bytes

instance : PlainMemory OpenMemory where
  readByte_writeByte := OpenMemory.readByte_writeByte
  readBytes_eq _ _ _ := rfl
  writeBytes_eq _ _ _ := rfl

/-- The distance of a byte of an operand from its start, around the end of memory
or not. -/
theorem toNat_add_sub (paddr : PhysAddr) {k : Nat} (hk : k < 2 ^ 32) :
    (paddr + BitVec.ofNat 32 k - paddr).toNat = k := by
  bv_omega

namespace PlainMemory

variable {β : Type} [Bus β] [PlainMemory β]

/-- One address further on, the distance from the start is one less. -/
theorem toNat_sub_succ {a addr : PhysAddr} (h : a ≠ addr) :
    (a - addr).toNat = (a - (addr + 1#32)).toNat + 1 := by
  have hne : a.toNat ≠ addr.toNat := fun e => h (BitVec.eq_of_toNat_eq e)
  bv_omega

/-- A byte after a store of consecutive bytes: the one stored at its distance
from the start if the store reaches that far, and else what it was. -/
theorem readByte_storeEach (bytes : List Byte) (hlen : bytes.length ≤ 2 ^ 32)
    (board : β) (addr a : PhysAddr) :
    Bus.readByte (storeEach Bus.writeByte board addr bytes) a =
      (bytes[(a - addr).toNat]?).getD (Bus.readByte board a) := by
  induction bytes generalizing board addr with
  | nil => simp [storeEach]
  | cons b rest ih =>
      simp only [List.length_cons] at hlen
      rw [storeEach, ih (by omega), readByte_writeByte]
      by_cases h : addr = a
      · subst h
        -- The rest of the store would have to go around all addresses.
        have hfar : rest.length ≤ (addr - (addr + 1#32)).toNat := by bv_omega
        rw [if_pos rfl, List.getElem?_eq_none hfar]
        simp
      · rw [if_neg h, toNat_sub_succ (fun e => h e.symm), List.getElem?_cons_succ]

theorem readByte_writeBytes (board : β) (addr a : PhysAddr) (bytes : List Byte)
    (hlen : bytes.length ≤ 2 ^ 32) :
    Bus.readByte (Bus.writeBytes board addr bytes) a =
      (bytes[(a - addr).toNat]?).getD (Bus.readByte board a) := by
  rw [writeBytes_eq, readByte_storeEach bytes hlen]

end PlainMemory

/-! ## The bytes of a number -/

/-- Byte `k` of a number, counted from the least significant one. -/
def byteOf (v : Quad) (k : Nat) : Byte := (v >>> (8 * k)).setWidth 8

theorem getLsbD_byteOf (v : Quad) (k j : Nat) :
    (byteOf v k).getLsbD j = (decide (j < 8) && v.getLsbD (8 * k + j)) := by
  simp [byteOf]

theorem byteOf_or (v w : Quad) (k : Nat) :
    byteOf (v ||| w) k = byteOf v k ||| byteOf w k := by
  simp [byteOf, BitVec.ushiftRight_or_distrib]

theorem getLsbD_ofBytesLowFirst (bytes : List Byte) (i : Nat) (hi : i < 128) :
    (ofBytesLowFirst bytes).getLsbD i =
      ((bytes[i / 8]?).getD 0#8).getLsbD (i % 8) := by
  induction bytes generalizing i with
  | nil => simp [ofBytesLowFirst]
  | cons b rest ih =>
      rw [ofBytesLowFirst, BitVec.getLsbD_or, BitVec.getLsbD_shiftLeft,
        BitVec.getLsbD_setWidth]
      by_cases h : i < 8
      · have hdiv : i / 8 = 0 := by omega
        have hmod : i % 8 = i := by omega
        simp [h, hi, hdiv, hmod]
      · have hdiv : i / 8 = (i - 8) / 8 + 1 := by omega
        have hmod : (i - 8) % 8 = i % 8 := by omega
        rw [ih (i - 8) (by omega), BitVec.getLsbD_of_ge b i (by omega), hdiv, hmod,
          List.getElem?_cons_succ]
        simp [h, hi]

/-- Joining bytes to a number leaves each byte where it was. -/
theorem byteOf_ofBytesLowFirst (bytes : List Byte) (k : Nat) (hk : k < 16) :
    byteOf (ofBytesLowFirst bytes) k = (bytes[k]?).getD 0#8 := by
  apply BitVec.eq_of_getLsbD_eq
  intro j hj
  have hdiv : (8 * k + j) / 8 = k := by omega
  have hmod : (8 * k + j) % 8 = j := by omega
  rw [getLsbD_byteOf, getLsbD_ofBytesLowFirst bytes _ (by omega), hdiv, hmod]
  simp [hj]

theorem getElem?_bytesLowFirst (count : Nat) (v : Quad) (k : Nat) (hk : k < count) :
    (bytesLowFirst count v)[k]? = some (byteOf v k) := by
  simp [bytesLowFirst, byteOf, hk]

@[simp] theorem length_bytesLowFirst (count : Nat) (v : Quad) :
    (bytesLowFirst count v).length = count := by
  simp [bytesLowFirst]

namespace ByteOrder

/-- Where byte `k` of an operand of `count` bytes lies, from its address on. -/
def place (order : ByteOrder) (count k : Nat) : Nat :=
  match order with
  | .little => k
  | .big => count - 1 - k

@[simp] theorem length_split (order : ByteOrder) (width : Width) (v : Quad) :
    (order.split width v).length = width.bytes := by
  cases order <;> simp [split]

theorem getElem?_split (order : ByteOrder) (width : Width) (v : Quad) (k : Nat)
    (hk : k < width.bytes) :
    (order.split width v)[k]? = some (byteOf v (order.place width.bytes k)) := by
  cases order with
  | little => exact getElem?_bytesLowFirst _ _ _ hk
  | big =>
      rw [split, List.getElem?_reverse (by simpa using hk), length_bytesLowFirst]
      exact getElem?_bytesLowFirst _ _ _ (by omega)

theorem byteOf_join (order : ByteOrder) (bytes : List Byte) (k : Nat)
    (hk : k < bytes.length) (hlen : bytes.length ≤ 16) :
    byteOf (order.join bytes) k =
      (bytes[order.place bytes.length k]?).getD 0#8 := by
  cases order with
  | little => exact byteOf_ofBytesLowFirst _ _ (by omega)
  | big =>
      rw [join, byteOf_ofBytesLowFirst _ _ (by omega), List.getElem?_reverse hk]
      rfl

end ByteOrder

end I860
