import I860.Proofs.DataAccess
import I860.Proofs.Deeds

/-!
# Frames that are written, and tables that are not

A program that may write to some frames of memory can do to the rest no more
than have accessed bits set, by having addresses translated. `KeptOutside` says
this of two boards, word by word, and leaves open what happens in the frames
that `written` names.

If these are not the frames that hold the page tables (`Protects`), the tables
have come to nothing but accessed bits either: every address has the entries
that it had, up to those bits (`KeptOutside.path`), and so the frames that hold
the tables are still the same.
-/

namespace I860

/-! ## Where an address lies -/

theorem PageAligned.and_pageFrameMask {a : Word} (h : PageAligned a) : a &&& pageFrameMask = a := by
  apply BitVec.eq_of_toNat_eq
  have hzero : (VirtAddr.pageOffset a).toNat = 0 := congrArg BitVec.toNat h
  rw [VirtAddr.toNat_pageOffset] at hzero
  rw [toNat_and_pageFrameMask, hzero, Nat.sub_zero]

/-- Further on in the same page, in the same frame. -/
theorem and_pageFrameMask_add {a : Word} {k : Nat} (h : a.toNat % 4096 + k < 4096) :
    (a + BitVec.ofNat 32 k) &&& pageFrameMask = a &&& pageFrameMask := by
  apply BitVec.eq_of_toNat_eq
  rw [toNat_and_pageFrameMask, toNat_and_pageFrameMask, VirtAddr.toNat_add h]
  omega

/-- An entry of a table lies in the frame of the table. -/
theorem and_pageFrameMask_of_entry {frame : Word} (h : PageAligned frame) (index : Word) :
    (frame ||| ((index &&& 0x3ff#32) <<< 2)) &&& pageFrameMask = frame := by
  have hindex : (index &&& 0x3ff#32) <<< 2 &&& pageFrameMask = 0#32 := by
    have hmasks : 0x3ff#32 <<< 2 &&& pageFrameMask = 0#32 := rfl
    rw [BitVec.shiftLeft_and_distrib, BitVec.and_assoc, hmasks, BitVec.and_zero]
  rw [BitVec.and_or_distrib_right, h.and_pageFrameMask, hindex, BitVec.or_zero]

theorem PageMapping.address_and_pageFrameMask (t : PageMapping) (vaddr : VirtAddr) :
    t.address vaddr &&& pageFrameMask = t.frame &&& pageFrameMask := by
  have hmasks : pageOffsetMask &&& pageFrameMask = 0#32 := rfl
  rw [address, PhysAddr.ofFrame, BitVec.and_or_distrib_right, BitVec.and_assoc,
    BitVec.and_self, BitVec.and_assoc, hmasks, BitVec.and_zero, BitVec.or_zero]

namespace PagePath

variable {β : Type} [Bus β] (order : ByteOrder) (board : β) (dtb : Word) (vaddr : VirtAddr)

theorem directoryAddr_and_pageFrameMask (hdtb : PageAligned dtb) :
    (of order board dtb vaddr).directoryAddr &&& pageFrameMask = dtb :=
  and_pageFrameMask_of_entry hdtb _

theorem tableAddr_and_pageFrameMask :
    (of order board dtb vaddr).tableAddr &&& pageFrameMask =
      (of order board dtb vaddr).directory.frame :=
  and_pageFrameMask_of_entry (Dirbase.pageAligned_frame _) _

end PagePath

/-! ## Deposits -/

section Deposits

variable {β : Type} [Bus β] [PlainMemory β]

theorem Deposit.readByte_put (deposit : Deposit) (order : ByteOrder) (board : β)
    {paddr a : PhysAddr} (h : deposit.width.bytes ≤ (a - paddr).toNat) :
    Bus.readByte (deposit.put order board paddr) a = Bus.readByte board a := by
  cases deposit with
  | operand width value =>
      have hfar : ¬(a - paddr).toNat < width.bytes := Nat.not_lt.2 h
      rw [put, readByte_store, if_neg hfar]
  | selected value mask =>
      have hfar : ¬(a - paddr).toNat < Width.bytes .double := Nat.not_lt.2 h
      rw [put]
      split
      · rw [readByte_store, if_neg hfar]
      · rw [readByte_storeSelected, if_neg (fun hselects => hfar hselects.1)]

end Deposits

/-! ## Boards that agree outside of frames -/

section Kept

variable {β : Type} [Bus β] {order : ByteOrder} {written : Word → Prop} {dtb : Word}
  {board board' board'' : β}

/-- Outside of the frames `written`, words have got accessed bits at most. -/
def KeptOutside (order : ByteOrder) (written : Word → Prop) (board board' : β) : Prop :=
  ∀ a, WordAligned a → ¬written (a &&& pageFrameMask) →
    ∃ m, (⟨Bus.loadWord order board' a⟩ : PageEntry) =
      PageEntry.mark ⟨Bus.loadWord order board a⟩ m false

/-- The frames `written` hold no page table of the directory at `dtb`. -/
def Protects (order : ByteOrder) (board : β) (dtb : Word) (written : Word → Prop) : Prop :=
  ¬written dtb ∧ ∀ vaddr, (PagePath.of order board dtb vaddr).directory.present = true →
    ¬written (PagePath.of order board dtb vaddr).directory.frame

/-- The entries of an address have got accessed bits at most. -/
structure PagePath.OnlyAccessed (p p' : PagePath) : Prop where
  directoryAddr : p'.directoryAddr = p.directoryAddr
  directory : ∃ m, p'.directory = p.directory.mark m false
  table : p.directory.present = true →
    p'.tableAddr = p.tableAddr ∧ ∃ m, p'.table = p.table.mark m false

theorem PagePath.OnlyAccessed.marked {p p' : PagePath} (h : p.OnlyAccessed p') : p.Marked p' := by
  obtain ⟨m, hdirectory⟩ := h.directory
  refine ⟨h.directoryAddr, ⟨m, false, hdirectory⟩, fun hpresent => ?_⟩
  obtain ⟨haddr, m', htable⟩ := h.table hpresent
  exact ⟨haddr, m', false, htable⟩

namespace KeptOutside

theorem refl (board : β) : KeptOutside order written board board := fun _ _ _ =>
  ⟨false, (PageEntry.mark_false _).symm⟩

theorem trans (h : KeptOutside order written board board')
    (h' : KeptOutside order written board' board'') : KeptOutside order written board board'' := by
  intro a ha hout
  obtain ⟨m, hfirst⟩ := h a ha hout
  obtain ⟨m', hsecond⟩ := h' a ha hout
  exact ⟨m || m', by rw [hsecond, hfirst, PageEntry.mark_mark]; rfl⟩

theorem path (h : KeptOutside order written board board') (hdtb : PageAligned dtb)
    (hprotects : Protects order board dtb written) (vaddr : VirtAddr) :
    (PagePath.of order board dtb vaddr).OnlyAccessed (PagePath.of order board' dtb vaddr) := by
  have hdirectory := h _ (PagePath.directoryAddr_aligned order board dtb vaddr hdtb)
    (by rw [PagePath.directoryAddr_and_pageFrameMask order board dtb vaddr hdtb]
        exact hprotects.1)
  have hframe : (PagePath.of order board' dtb vaddr).directory.frame =
      (PagePath.of order board dtb vaddr).directory.frame := by
    obtain ⟨m, hmark⟩ := hdirectory
    exact (congrArg PageEntry.frame hmark).trans (PageEntry.frame_mark _ _ _)
  obtain ⟨htableAddr, hentry⟩ := PagePath.table_of_frame_eq hframe
  refine ⟨rfl, hdirectory, fun hpresent => ⟨htableAddr, ?_⟩⟩
  rw [hentry]
  apply h _ (PagePath.tableAddr_aligned order board dtb vaddr)
  rw [PagePath.tableAddr_and_pageFrameMask]
  exact hprotects.2 vaddr hpresent

theorem protects (h : KeptOutside order written board board') (hdtb : PageAligned dtb)
    (hprotects : Protects order board dtb written) : Protects order board' dtb written := by
  refine ⟨hprotects.1, fun vaddr hpresent => ?_⟩
  obtain ⟨m, hmark⟩ := (h.path hdtb hprotects vaddr).directory
  rw [hmark, PageEntry.present_mark] at hpresent
  rw [hmark, PageEntry.frame_mark]
  exact hprotects.2 vaddr hpresent

variable [PlainMemory β]

theorem of_record (hdtb : PageAligned dtb) (board : β) (vaddr : VirtAddr) :
    KeptOutside order written board ((PagePath.of order board dtb vaddr).record order board) :=
  fun _ ha _ => ⟨_, loadWord_record order hdtb board vaddr ha⟩

theorem of_walk (hdtb : PageAligned dtb) (board : β) (vaddr : VirtAddr) (access : AccessKind)
    (who : Privilege) :
    KeptOutside order written board (walk order board dtb vaddr access who).2 := by
  rw [walk_eq]
  split
  · exact of_record hdtb board vaddr
  · exact refl board

theorem of_translate {dirbase : Dirbase} (hdtb : PageAligned dirbase.dtb) (m : Mmu) (board : β)
    (vaddr : VirtAddr) (access : AccessKind) (who : Privilege) :
    KeptOutside order written board
      (m.translate order board dirbase vaddr access who).2.2 := by
  obtain ⟨_, heq, -⟩ | ⟨_, heq⟩ | heq := m.translate_cases order board dirbase vaddr access who
  · rw [heq]
    exact refl board
  · rw [heq]
    exact refl board
  · rw [heq, (Prod.mk.inj (m.translateByWalk_eq order board dirbase.dtb vaddr access who)).2]
    exact of_walk hdtb board vaddr access who

theorem of_put (deposit : Deposit) (board : β) {paddr : PhysAddr}
    (hin : ∀ k < deposit.width.bytes,
      written ((paddr + BitVec.ofNat 32 k) &&& pageFrameMask)) :
    KeptOutside order written board (deposit.put order board paddr) := by
  intro a ha hout
  refine ⟨false, ?_⟩
  rw [PageEntry.mark_false]
  congr 1
  apply Word.eq_of_bytes
  intro k hk
  rw [byteOf_loadWord order _ a hk, byteOf_loadWord order board a hk]
  apply deposit.readByte_put
  -- A byte of the word that the deposit reached would be in one of its frames.
  apply Nat.le_of_not_lt
  intro hreached
  have hbyte : paddr + BitVec.ofNat 32 (a + BitVec.ofNat 32 (order.place 4 k) - paddr).toNat =
      a + BitVec.ofNat 32 (order.place 4 k) := by
    bv_omega
  have hroom : a.toNat % 4096 + order.place 4 k < 4096 :=
    Width.room .word ha.mod_eq (order.place_lt hk)
  have hwritten := hin _ hreached
  rw [hbyte, and_pageFrameMask_add hroom] at hwritten
  exact hout hwritten

end KeptOutside

end Kept

end I860
