import I860.Board.Ram
import I860.Proofs.AccessedBits

/-!
# The two ways into a bank of memory

An access to a bank is decided by where its first byte lies. If the rest fits
behind it, one offset serves all of it, and else every byte finds its own. That
this makes no difference is a matter of addresses: behind a byte of the bank the
offset goes on with the address until the bank ends (`Ram.offset?_add_one`), even
where the addresses start again at zero, because a bank is no larger than the
address space.

What an access is worth is then said of single bytes. A byte that is read is
looked up by its own address (`getElem?_loadEach`). Of what is written, `Wrote`
says for each cell which byte ends up there: the last one that was meant for it,
since an access may be longer than the address space, or the one it had before.

A third decision is made where an image is loaded, by addresses that do not wrap.
Where it lets an image pass, the other two would have stored the same.
-/

namespace I860

namespace Ram

variable {r : Ram} {addr : PhysAddr} {o : Nat}

theorem offset?_eq (r : Ram) (addr : PhysAddr) :
    r.offset? addr = if (addr - r.base).toNat < r.size then some (addr - r.base).toNat else none :=
  rfl

theorem offset?_eq_some_iff :
    r.offset? addr = some o ↔ (addr - r.base).toNat = o ∧ o < r.size := by
  rw [offset?_eq]
  constructor
  · intro h
    split at h
    · next hlt => exact ⟨Option.some.inj h, Option.some.inj h ▸ hlt⟩
    · cases h
  · rintro ⟨rfl, hlt⟩
    exact if_pos hlt

/-- Behind a byte of the bank lies the next one, as long as the bank goes on. -/
theorem offset?_add_one (hsize : r.size ≤ 2 ^ 32) (h : r.offset? addr = some o)
    (hnext : o + 1 < r.size) : r.offset? (addr + 1#32) = some (o + 1) := by
  rw [offset?_eq_some_iff] at h ⊢
  refine ⟨?_, hnext⟩
  bv_omega

theorem readByte_eq (r : Ram) (addr : PhysAddr) :
    r.readByte addr =
      if (addr - r.base).toNat < r.size then r.cell (addr - r.base).toNat else 0#8 := by
  rw [readByte, offset?_eq]
  by_cases h : (addr - r.base).toNat < r.size
  · rw [if_pos h, if_pos h]
  · rw [if_neg h, if_neg h]

theorem writeByte_eq (r : Ram) (addr : PhysAddr) (b : Byte) :
    r.writeByte addr b =
      if (addr - r.base).toNat < r.size then r.setCell (addr - r.base).toNat b else r := by
  rw [writeByte, offset?_eq]
  by_cases h : (addr - r.base).toNat < r.size
  · rw [if_pos h, if_pos h]
  · rw [if_neg h, if_neg h]

/-! ## One offset or many -/

theorem loadEach_eq_cellRange (hsize : r.size ≤ 2 ^ 32) (h : r.offset? addr = some o) (count : Nat)
    (hfits : o + count ≤ r.size) : loadEach r.readByte addr count = r.cellRange o count := by
  induction count generalizing addr o with
  | zero => rfl
  | succ n ih =>
      have hfirst : r.readByte addr = r.cell o := by rw [readByte, h]
      rw [loadEach, cellRange, hfirst]
      cases n with
      | zero => rfl
      | succ n => rw [ih (offset?_add_one hsize h (by omega)) (by omega)]

theorem storeEach_eq_setCellRange (hsize : r.size ≤ 2 ^ 32) (h : r.offset? addr = some o)
    (bytes : List Byte) (hfits : o + bytes.length ≤ r.size) :
    storeEach writeByte r addr bytes = r.setCellRange o bytes := by
  induction bytes generalizing r addr o with
  | nil => rfl
  | cons b rest ih =>
      have hfirst : r.writeByte addr b = r.setCell o b := by rw [writeByte, h]
      rw [storeEach, setCellRange, hfirst]
      cases rest with
      | nil => rfl
      | cons b' rest =>
          simp only [List.length_cons] at hfits
          have hnext : r.offset? (addr + 1#32) = some (o + 1) :=
            offset?_add_one hsize h (by omega)
          have hrest : o + 1 + (b' :: rest).length ≤ r.size := by
            rw [List.length_cons]
            omega
          exact ih (r := r.setCell o b) hsize hnext hrest

theorem readBytes_eq_loadEach (hsize : r.size ≤ 2 ^ 32) (addr : PhysAddr) (count : Nat) :
    r.readBytes addr count = loadEach r.readByte addr count := by
  unfold readBytes
  split
  · next o h =>
      split
      · next hfits => exact (loadEach_eq_cellRange hsize h count hfits).symm
      · rfl
  · rfl

theorem writeBytes_eq_storeEach (hsize : r.size ≤ 2 ^ 32) (addr : PhysAddr) (bytes : List Byte) :
    r.writeBytes addr bytes = storeEach writeByte r addr bytes := by
  unfold writeBytes
  split
  · next o h =>
      split
      · next hfits => exact (storeEach_eq_setCellRange hsize h bytes hfits).symm
      · rfl
  · rfl

/-! ## What is written -/

theorem cell_setCell (r : Ram) {o o' : Nat} (ho : o < 2 ^ 64) (ho' : o' < 2 ^ 64) (b : Byte) :
    (r.setCell o b).cell o' = if o = o' then b else r.cell o' := by
  have hkey : BitVec.ofNat 64 o = BitVec.ofNat 64 o' ↔ o = o' := by
    rw [← BitVec.toNat_inj, BitVec.toNat_ofNat, BitVec.toNat_ofNat, Nat.mod_eq_of_lt ho,
      Nat.mod_eq_of_lt ho']
  rw [cell, setCell, Sparse.get?_insert]
  simp only [hkey]
  split <;> rfl

/-- The bank `r'` is `r` after `bytes` were written from `addr` on. -/
structure Wrote (r : Ram) (addr : PhysAddr) (bytes : List Byte) (r' : Ram) : Prop where
  base : r'.base = r.base
  size : r'.size = r.size
  kept : ∀ o < r.size, (∀ k < bytes.length, (addr + BitVec.ofNat 32 k - r.base).toNat ≠ o) →
    r'.cell o = r.cell o
  stored : ∀ k b, bytes[k]? = some b → (addr + BitVec.ofNat 32 k - r.base).toNat < r.size →
    (∀ j < bytes.length, k < j → addr + BitVec.ofNat 32 j ≠ addr + BitVec.ofNat 32 k) →
    r'.cell (addr + BitVec.ofNat 32 k - r.base).toNat = b

theorem wrote_storeEach (hsize : r.size ≤ 2 ^ 32) (addr : PhysAddr) (bytes : List Byte) :
    r.Wrote addr bytes (storeEach writeByte r addr bytes) := by
  induction bytes generalizing r addr with
  | nil => exact ⟨rfl, rfl, fun _ _ _ => rfl, fun k b h => by cases h⟩
  | cons b rest ih =>
      have hbase : (r.writeByte addr b).base = r.base := by
        rw [writeByte_eq]
        split <;> rfl
      have hsame : (r.writeByte addr b).size = r.size := by
        rw [writeByte_eq]
        split <;> rfl
      have hcell : ∀ o < r.size, (r.writeByte addr b).cell o =
          if (addr - r.base).toNat = o then b else r.cell o := by
        intro o ho
        rw [writeByte_eq]
        split
        · next hin => exact r.cell_setCell (by omega) (by omega) b
        · next hout => rw [if_neg (by omega)]
      have hstep : ∀ k, addr + 1#32 + BitVec.ofNat 32 k = addr + BitVec.ofNat 32 (k + 1) := by
        intro k
        bv_omega
      have hzero : addr + BitVec.ofNat 32 0 = addr := by simp
      have hrest := ih (r := r.writeByte addr b) (hsame ▸ hsize) (addr + 1#32)
      rw [storeEach]
      obtain ⟨hbase', hsize', hkept, hstored⟩ := hrest
      simp only [hbase, hsame, hstep] at hbase' hsize' hkept hstored
      refine ⟨hbase', hsize', fun o ho hmiss => ?_, fun k b' hk hin hlast => ?_⟩
      · have hfirst := hmiss 0 (by simp)
        rw [hzero] at hfirst
        rw [hkept o ho (fun k hk => hmiss (k + 1) (by simpa using hk)), hcell o ho, if_neg hfirst]
      · cases k with
        | zero =>
            rw [List.getElem?_cons_zero, Option.some.injEq] at hk
            rw [hzero] at hin hlast ⊢
            have hover : ∀ j < rest.length,
                (addr + BitVec.ofNat 32 (j + 1) - r.base).toNat ≠ (addr - r.base).toNat := by
              intro j hj hsame
              apply hlast (j + 1) (by simpa using hj) (by omega)
              bv_omega
            rw [hkept _ hin hover, hcell _ hin, if_pos rfl, hk]
        | succ k =>
            rw [List.getElem?_cons_succ] at hk
            apply hstored k b' hk hin
            intro j hj hkj
            exact hlast (j + 1) (by simpa using hj) (by omega)

/-! ## Images -/

/-- The image lies in the bank, by addresses that do not wrap. -/
def Fits (r : Ram) (addr : PhysAddr) (image : List Byte) : Prop :=
  r.base.toNat ≤ addr.toNat ∧ addr.toNat + image.length ≤ r.base.toNat + r.size

instance (r : Ram) (addr : PhysAddr) (image : List Byte) : Decidable (r.Fits addr image) :=
  inferInstanceAs (Decidable (_ ∧ _))

/-- The bank after an image was loaded. One that is refused leaves the bank as it
was. -/
def afterLoad (r : Ram) (addr : PhysAddr) (image : List Byte) : Ram :=
  match r.loadImage addr image with
  | .ok loaded => loaded
  | .error _ => r

theorem loadImage_of_fits {image : List Byte} (h : r.Fits addr image) :
    r.loadImage addr image = .ok (r.writeBytes addr image) := by
  obtain ⟨hbase, hend⟩ := h
  have hdist : (addr - r.base).toNat = addr.toNat - r.base.toNat := by bv_omega
  have hfits : addr.toNat - r.base.toNat + image.length ≤ r.size := by omega
  rw [loadImage, if_pos ⟨hbase, hfits⟩, writeBytes, offset?_eq, hdist]
  split
  · next o ho =>
      split at ho
      · cases ho
        rw [if_pos hfits]
      · cases ho
  · next ho =>
      split at ho
      · cases ho
      · next hout =>
          -- An image at the very end of the bank has no bytes.
          have hempty : image = [] := List.eq_nil_of_length_eq_zero (by omega)
          rw [hempty]
          rfl

theorem loadImage_of_not_fits {image : List Byte} (h : ¬r.Fits addr image) :
    r.loadImage addr image = .error (.imageTooLarge addr image.length) := by
  rw [loadImage, if_neg]
  rintro ⟨hbase, hfits⟩
  exact h ⟨hbase, by omega⟩

end Ram

/-- Reading and writing several bytes of a bank by one offset is the same as
going by bytes, wherever the bank and the access lie and however long they are.
A byte that is read is the cell that its address finds in the bank, or zero. A
cell that is found by an address in a write gets the last byte written to it,
and all others stay. An image is loaded if it lies in the bank without wrapping,
and then as if it had been written, and else is refused for its size with the
bank as it was. -/
theorem bank_paths_agree (r : Ram) (hsize : r.size ≤ 2 ^ 32) (addr : PhysAddr) :
    (∀ count,
      Bus.readBytes r addr count = loadEach (Bus.readByte r) addr count ∧
        (Bus.readBytes r addr count).length = count ∧
        ∀ k < count, (Bus.readBytes r addr count)[k]? =
          some (if (addr + BitVec.ofNat 32 k - r.base).toNat < r.size then
            r.cell (addr + BitVec.ofNat 32 k - r.base).toNat else 0#8)) ∧
    (∀ bytes,
      Bus.writeBytes r addr bytes = storeEach Bus.writeByte r addr bytes ∧
        r.Wrote addr bytes (Bus.writeBytes r addr bytes)) ∧
    (∀ image,
      (r.Fits addr image → r.loadImage addr image = .ok (Bus.writeBytes r addr image) ∧
        r.afterLoad addr image = Bus.writeBytes r addr image) ∧
      (¬r.Fits addr image →
        r.loadImage addr image = .error (.imageTooLarge addr image.length) ∧
          r.afterLoad addr image = r)) := by
  refine ⟨fun count => ?_, fun bytes => ?_, fun image => ⟨fun h => ?_, fun h => ?_⟩⟩
  · have hpath : Bus.readBytes r addr count = loadEach (Bus.readByte r) addr count :=
      r.readBytes_eq_loadEach hsize addr count
    refine ⟨hpath, by rw [hpath, length_loadEach], fun k hk => ?_⟩
    rw [hpath, getElem?_loadEach _ _ _ _ hk]
    exact congrArg some (r.readByte_eq _)
  · have hpath : Bus.writeBytes r addr bytes = storeEach Bus.writeByte r addr bytes :=
      r.writeBytes_eq_storeEach hsize addr bytes
    exact ⟨hpath, hpath ▸ r.wrote_storeEach hsize addr bytes⟩
  · have hloaded := Ram.loadImage_of_fits h
    exact ⟨hloaded, by rw [Ram.afterLoad, hloaded]; rfl⟩
  · have hrefused := Ram.loadImage_of_not_fits h
    exact ⟨hrefused, by rw [Ram.afterLoad, hrefused]⟩

/-- A bank of eight bytes, four below the end of the address space and four at
its start. -/
def wrappedBank : Ram := .zeroed 0xfffffffc#32 8

/-- Of five bytes that are written at `0x1` the last two have no place in the
bank. A read around the end of the address space finds the first of them. An
image behind the end of the address space is refused. -/
theorem bank_paths_agree_of_wrapped :
    let written := Bus.writeBytes wrappedBank 0x1#32 [0x11#8, 0x22#8, 0x33#8, 0x44#8, 0x55#8]
    wrappedBank.size ≤ 2 ^ 32 ∧
      written = storeEach Bus.writeByte wrappedBank 0x1#32
        [0x11#8, 0x22#8, 0x33#8, 0x44#8, 0x55#8] ∧
      written.cell 7 = 0x33#8 ∧
      loadEach (Bus.readByte written) 0xfffffffe#32 4 = [0#8, 0#8, 0#8, 0x11#8] ∧
      wrappedBank.loadImage 0x1#32 [0x11#8] = .error (.imageTooLarge 0x1#32 1) := by
  intro written
  have hsize : wrappedBank.size ≤ 2 ^ 32 := by decide
  obtain ⟨-, hwrite, himage⟩ := bank_paths_agree wrappedBank hsize 0x1#32
  obtain ⟨hpath, hwrote⟩ := hwrite [0x11#8, 0x22#8, 0x33#8, 0x44#8, 0x55#8]
  have hread := (bank_paths_agree written (hwrote.size ▸ hsize) 0xfffffffe#32).1 4
  have hthird : written.cell 7 = 0x33#8 :=
    hwrote.stored 2 0x33#8 rfl (by decide) (by decide)
  have hfound : Bus.readBytes written 0xfffffffe#32 4 = [0#8, 0#8, 0#8, 0x11#8] := by
    decide +kernel
  exact ⟨hsize, hpath, hthird, hread.1 ▸ hfound, ((himage [0x11#8]).2 (by decide)).1⟩

end I860
