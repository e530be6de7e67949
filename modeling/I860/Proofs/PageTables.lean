import I860.Proofs.AccessedBits

/-!
# Page tables as they stand in memory

The entries of page tables are aligned words, so two of them are the same word
or have no byte in common. On plain memory that makes a store to one entry
easy to see through (`loadWord_storeWord`), even where tables alias each
other and one word is an entry at both levels.

`PagePath.of` names the two entries of an address whether they grant anything
or not, and a walk is a case distinction on them (`walk_eq`). All that ever
happens to entries here is that accessed and dirty bits get set. `TablesKept`
says this of two boards, and leaves open what happens to memory outside of the
tables. A walk keeps the tables in this sense (`record_keepsTables`), whatever
address it was for.
-/

namespace I860

/-- The address of a whole word. -/
def WordAligned (a : PhysAddr) : Prop := a &&& 3#32 = 0#32

/-- The address of a whole page, as the directory base holds it. -/
def PageAligned (a : PhysAddr) : Prop := a &&& pageOffsetMask = 0#32

namespace WordAligned

theorem mod_eq {a : PhysAddr} (h : WordAligned a) : a.toNat % 4 = 0 := by
  have hand : (a &&& 3#32).toNat = 0 := by rw [h]; rfl
  rw [BitVec.toNat_and] at hand
  exact (Nat.and_two_pow_sub_one_eq_mod a.toNat 2).symm.trans hand

/-- Entry number `index` of the table at `frame`. -/
theorem of_entry {frame index : Word} (h : frame &&& 3#32 = 0#32) :
    WordAligned (frame ||| (index <<< 2)) := by
  have hindex : (index <<< 2) &&& 3#32 = 0#32 := by
    apply BitVec.eq_of_getLsbD_eq
    intro i hi
    have hthree : (3#32).getLsbD i = decide (i < 2) := by
      decide +revert
    rw [BitVec.getLsbD_and, BitVec.getLsbD_shiftLeft, hthree]
    by_cases hlow : i < 2
    · simp [hlow]
    · simp [hlow]
  rw [WordAligned, BitVec.and_or_distrib_right, h, hindex]
  rfl

end WordAligned

theorem PageAligned.word {a : PhysAddr} (h : PageAligned a) : a &&& 3#32 = 0#32 := by
  have hthree : 3#32 = pageOffsetMask &&& 3#32 := rfl
  rw [hthree, ← BitVec.and_assoc, h, BitVec.zero_and]

theorem Dirbase.pageAligned_frame (v : Word) : PageAligned (v &&& frameBits) := by
  have hbits : frameBits &&& pageOffsetMask = 0#32 := rfl
  rw [PageAligned, BitVec.and_assoc, hbits, BitVec.and_zero]

section Words

variable {β : Type} [Bus β] [PlainMemory β]

theorem Word.eq_of_bytes {v w : Word}
    (h : ∀ k < 4, byteOf (v.setWidth 128) k = byteOf (w.setWidth 128) k) : v = w := by
  apply BitVec.eq_of_getLsbD_eq
  intro i hi
  have hbyte := congrArg (BitVec.getLsbD · (i % 8)) (h (i / 8) (by omega))
  have hsplit : 8 * (i / 8) + i % 8 = i := by omega
  have hmod : i % 8 < 8 := by omega
  have hquad : i < 128 := by omega
  simpa only [getLsbD_byteOf, BitVec.getLsbD_setWidth, hsplit, hmod, hquad, decide_true,
    Bool.true_and] using hbyte

/-- A word after a store to a word. -/
theorem loadWord_storeWord (order : ByteOrder) (board : β) {a b : PhysAddr}
    (ha : WordAligned a) (hb : WordAligned b) (v : Word) :
    Bus.loadWord order (Bus.storeWord order board a v) b =
      if a = b then v else Bus.loadWord order board b := by
  apply Word.eq_of_bytes
  intro k hk
  have hplace := order.place_lt hk
  rw [byteOf_loadWord order _ b hk, readByte_storeWord]
  by_cases hab : a = b
  · subst hab
    have hdist : (a + BitVec.ofNat 32 (order.place 4 k) - a).toNat = order.place 4 k := by
      bv_omega
    rw [hdist, if_pos hplace, if_pos rfl, order.place_place hk]
  · have ha4 := ha.mod_eq
    have hb4 := hb.mod_eq
    have hne : a.toNat ≠ b.toNat := fun e => hab (BitVec.eq_of_toNat_eq e)
    have hfar : ¬(b + BitVec.ofNat 32 (order.place 4 k) - a).toNat < 4 := by
      bv_omega
    rw [if_neg hfar, if_neg hab, byteOf_loadWord order board b hk]

end Words

/-! ## Entries and their marks -/

namespace PageEntry

/-- Whether an access is on record. -/
def accessed (e : PageEntry) : Bool := e.raw.getLsbD 5

/-- The entry with its accessed bit set, its dirty bit set, or both. -/
def mark (e : PageEntry) (a d : Bool) : PageEntry :=
  ⟨e.raw ||| flagBit a 5 ||| flagBit d 6⟩

variable (e : PageEntry) (a d : Bool)

@[simp] theorem present_mark : (e.mark a d).present = e.present := by
  cases a <;> cases d <;> simp [mark, present, flagBit]

@[simp] theorem writable_mark : (e.mark a d).writable = e.writable := by
  cases a <;> cases d <;> simp [mark, writable, flagBit]

@[simp] theorem user_mark : (e.mark a d).user = e.user := by
  cases a <;> cases d <;> simp [mark, user, flagBit]

@[simp] theorem accessed_mark : (e.mark a d).accessed = (e.accessed || a) := by
  cases a <;> cases d <;> simp [mark, accessed, flagBit]

@[simp] theorem dirty_mark : (e.mark a d).dirty = (e.dirty || d) := by
  cases a <;> cases d <;> simp [mark, dirty, flagBit]

@[simp] theorem frame_mark : (e.mark a d).frame = e.frame := by
  cases a <;> cases d <;> simp [mark, frame, flagBit, BitVec.and_or_distrib_right]

theorem mark_mark (a' d' : Bool) : (e.mark a d).mark a' d' = e.mark (a || a') (d || d') := by
  cases a <;> cases d <;> cases a' <;> cases d' <;>
    simp [mark, flagBit, BitVec.or_assoc]

theorem mark_false : e.mark false false = e := by
  simp [mark, flagBit]

theorem markAccessed_eq_mark : e.markAccessed = e.mark true false := by
  simp [markAccessed, mark, accessedBit, flagBit]

/-- Recording an access that is on record changes nothing. -/
theorem markAccessed_of_accessed (h : e.accessed = true) : e.markAccessed = e := by
  have hraw : e.raw ||| accessedBit = e.raw := by
    apply BitVec.eq_of_getLsbD_eq
    intro i hi
    have hbit : accessedBit.getLsbD i = decide (i = 5) := by
      decide +revert
    by_cases h5 : i = 5
    · subst h5
      rw [BitVec.getLsbD_or, show e.raw.getLsbD 5 = true from h, Bool.true_or]
    · rw [BitVec.getLsbD_or, hbit, decide_eq_false h5, Bool.or_false]
  rw [markAccessed, hraw]

/-- One entry is the other with marks at most. -/
def MarkedTo (e e' : PageEntry) : Prop := ∃ a d, e' = e.mark a d

theorem MarkedTo.refl : MarkedTo e e := ⟨false, false, e.mark_false.symm⟩

theorem MarkedTo.trans {e e' e'' : PageEntry} (h : MarkedTo e e') (h' : MarkedTo e' e'') :
    MarkedTo e e'' := by
  obtain ⟨a, d, rfl⟩ := h
  obtain ⟨a', d', rfl⟩ := h'
  exact ⟨a || a', d || d', e.mark_mark a d a' d'⟩

end PageEntry

/-! ## The entries of an address -/

attribute [ext] PagePath

namespace PagePath

section Of

variable {β : Type} [Bus β] (order : ByteOrder) (board : β) (dtb : Word) (vaddr : VirtAddr)

/-- The two entries of an address, present or not. -/
def of : PagePath :=
  let directoryAddr := dtb ||| (vaddr.directoryIndex <<< 2)
  let directory : PageEntry := ⟨Bus.loadWord order board directoryAddr⟩
  let tableAddr := directory.frame ||| (vaddr.tableIndex <<< 2)
  ⟨directoryAddr, directory, tableAddr, ⟨Bus.loadWord order board tableAddr⟩⟩

theorem of_congr {vaddr' : VirtAddr} (h : vaddr'.pageNumber = vaddr.pageNumber) :
    of order board dtb vaddr' = of order board dtb vaddr := by
  have hdirectory : vaddr'.directoryIndex = vaddr.directoryIndex := by
    have hshift : ∀ v : VirtAddr, v >>> 22 = v.pageNumber >>> 10 := fun v => by
      rw [VirtAddr.pageNumber, ← BitVec.shiftRight_add]
    rw [VirtAddr.directoryIndex, VirtAddr.directoryIndex, hshift, hshift, h]
  have htable : vaddr'.tableIndex = vaddr.tableIndex :=
    congrArg (· &&& 0x3ff#32) h
  rw [of, of, hdirectory, htable]

theorem directoryAddr_aligned (hdtb : PageAligned dtb) :
    WordAligned (of order board dtb vaddr).directoryAddr :=
  .of_entry hdtb.word

theorem tableAddr_aligned : WordAligned (of order board dtb vaddr).tableAddr :=
  .of_entry (Dirbase.pageAligned_frame _).word

variable {order board dtb vaddr}

/-- The frame in the directory entry is all that the place of the other entry
depends on. -/
theorem table_of_frame_eq {board' : β}
    (h : (of order board' dtb vaddr).directory.frame = (of order board dtb vaddr).directory.frame) :
    (of order board' dtb vaddr).tableAddr = (of order board dtb vaddr).tableAddr ∧
      (of order board' dtb vaddr).table =
        ⟨Bus.loadWord order board' (of order board dtb vaddr).tableAddr⟩ := by
  have haddr : (of order board' dtb vaddr).tableAddr = (of order board dtb vaddr).tableAddr :=
    congrArg (· ||| (vaddr.tableIndex <<< 2)) h
  exact ⟨haddr, congrArg (fun addr => PageEntry.mk (Bus.loadWord order board' addr)) haddr⟩

end Of

/-- Whether both entries are there and grant an access. -/
def grants (p : PagePath) (access : AccessKind) (who : Privilege) : Bool :=
  (p.directory.present && permits p.directory.writable p.directory.user access who) &&
    (p.table.present && permits p.table.writable p.table.user access who)

variable {β : Type} [Bus β]

theorem resolve_eq (order : ByteOrder) (board : β) (dtb : Word) (vaddr : VirtAddr)
    (access : AccessKind) (who : Privilege) :
    resolve order board dtb vaddr access who =
      if (of order board dtb vaddr).grants access who then some (of order board dtb vaddr)
      else none := by
  unfold resolve grants of
  dsimp only
  split
  · next hdirectory => rw [hdirectory, Bool.true_and]
  · next hdirectory => rw [Bool.not_eq_true] at hdirectory; rw [hdirectory]; rfl

end PagePath

section Walk

variable {β : Type} [Bus β]

/-- A walk, by the two entries of the address. -/
theorem walk_eq (order : ByteOrder) (board : β) (dtb : Word) (vaddr : VirtAddr)
    (access : AccessKind) (who : Privilege) :
    walk order board dtb vaddr access who =
      if (PagePath.of order board dtb vaddr).grants access who then
        (if access.isWrite && !(PagePath.of order board dtb vaddr).table.dirty then
            .error .dataAccess
          else .ok (PagePath.of order board dtb vaddr).mapping,
          (PagePath.of order board dtb vaddr).record order board)
      else (.error access.fault, board) := by
  unfold walk
  rw [PagePath.resolve_eq]
  split
  · next hnone =>
      split at hnone
      · cases hnone
      · next hrefused => rw [if_neg hrefused]
  · next path hsome =>
      split at hsome
      · next hgrants =>
          cases hsome
          rw [if_pos hgrants]
          dsimp only
          split <;> rfl
      · cases hsome

/-- Two permissions that are both needed are as good as one. -/
theorem permits_and (w u w' u' : Bool) (access : AccessKind) (who : Privilege) :
    permits (w && w') (u && u') access who =
      (permits w u access who && permits w' u' access who) := by
  obtain ⟨user, protect⟩ := who
  cases access <;> cases user <;> cases protect <;> cases w <;> cases u <;> cases w' <;>
    cases u' <;> rfl

/-- What a mapping permits, the entries it was read from permit. -/
theorem PagePath.grants_mapping (p : PagePath) (access : AccessKind) (who : Privilege)
    (hdirectory : p.directory.present = true) (htable : p.table.present = true) :
    p.mapping.grants access who = p.grants access who := by
  rw [PageMapping.grants, PagePath.mapping, PagePath.grants, permits_and, hdirectory, htable,
    Bool.true_and, Bool.true_and]

end Walk

/-! ## What happens to tables -/

/-- The entries of an address have got marks since. -/
structure PagePath.Marked (p p' : PagePath) : Prop where
  directoryAddr : p'.directoryAddr = p.directoryAddr
  directory : p.directory.MarkedTo p'.directory
  table : p.directory.present = true →
    p'.tableAddr = p.tableAddr ∧ p.table.MarkedTo p'.table

/-- From one board to the other, nothing has happened to the page tables at
`dtb` but that accessed and dirty bits were set. -/
def TablesKept {β : Type} [Bus β] (order : ByteOrder) (dtb : Word) (board board' : β) : Prop :=
  ∀ vaddr, (PagePath.of order board dtb vaddr).Marked (PagePath.of order board' dtb vaddr)

section Kept

variable {β : Type} [Bus β] {order : ByteOrder} {dtb : Word} {board board' board'' : β}

/-- Every word has got marks at most. -/
def WordsMarked (order : ByteOrder) (board board' : β) : Prop :=
  ∀ a, WordAligned a →
    PageEntry.MarkedTo ⟨Bus.loadWord order board a⟩ ⟨Bus.loadWord order board' a⟩

theorem WordsMarked.tablesKept (h : WordsMarked order board board') (hdtb : PageAligned dtb) :
    TablesKept order dtb board board' := by
  intro vaddr
  have hdirectory := h _ (PagePath.directoryAddr_aligned order board dtb vaddr hdtb)
  have hframe : (PagePath.of order board' dtb vaddr).directory.frame =
      (PagePath.of order board dtb vaddr).directory.frame := by
    obtain ⟨a, d, hmark⟩ := hdirectory
    exact (congrArg PageEntry.frame hmark).trans (PageEntry.frame_mark _ _ _)
  obtain ⟨htableAddr, hentry⟩ := PagePath.table_of_frame_eq hframe
  refine ⟨rfl, hdirectory, fun _ => ⟨htableAddr, ?_⟩⟩
  rw [hentry]
  exact h _ (PagePath.tableAddr_aligned order board dtb vaddr)

namespace TablesKept

theorem refl (board : β) : TablesKept order dtb board board := fun _ =>
  ⟨rfl, .refl _, fun _ => ⟨rfl, .refl _⟩⟩

theorem trans (h : TablesKept order dtb board board')
    (h' : TablesKept order dtb board' board'') : TablesKept order dtb board board'' := by
  intro vaddr
  have hfirst := h vaddr
  have hsecond := h' vaddr
  refine ⟨hsecond.directoryAddr.trans hfirst.directoryAddr,
    hfirst.directory.trans hsecond.directory, fun hpresent => ?_⟩
  obtain ⟨haddr, hmarked⟩ := hfirst.table hpresent
  have hstill : (PagePath.of order board' dtb vaddr).directory.present = true := by
    obtain ⟨a, d, hmark⟩ := hfirst.directory
    rw [hmark, PageEntry.present_mark, hpresent]
  obtain ⟨haddr', hmarked'⟩ := hsecond.table hstill
  exact ⟨haddr'.trans haddr, hmarked.trans hmarked'⟩

end TablesKept

variable [PlainMemory β]

/-- Setting marks in one word, which may be an entry of the tables. -/
theorem storeWord_mark_tablesKept (hdtb : PageAligned dtb) {addr : PhysAddr}
    (haddr : WordAligned addr) (a d : Bool) :
    TablesKept order dtb board
      (Bus.storeWord order board addr
        (PageEntry.mark ⟨Bus.loadWord order board addr⟩ a d).raw) := by
  apply WordsMarked.tablesKept _ hdtb
  intro b hb
  rw [loadWord_storeWord order board haddr hb]
  by_cases hab : addr = b
  · subst hab
    rw [if_pos rfl]
    exact ⟨a, d, rfl⟩
  · rw [if_neg hab]
    exact .refl _

end Kept

section Record

variable {β : Type} [Bus β] [PlainMemory β] (order : ByteOrder) {dtb : Word}

/-- The words of a board on which an access to `vaddr` was recorded. -/
theorem loadWord_record (hdtb : PageAligned dtb) (board : β) (vaddr : VirtAddr)
    {a : PhysAddr} (ha : WordAligned a) :
    (⟨Bus.loadWord order ((PagePath.of order board dtb vaddr).record order board) a⟩ :
        PageEntry) =
      PageEntry.mark ⟨Bus.loadWord order board a⟩
        (decide (a = (PagePath.of order board dtb vaddr).directoryAddr ∨
          a = (PagePath.of order board dtb vaddr).tableAddr)) false := by
  have hdirectory := PagePath.directoryAddr_aligned order board dtb vaddr hdtb
  have htable := PagePath.tableAddr_aligned order board dtb vaddr
  rw [PagePath.record, loadWord_storeWord order _ htable ha]
  by_cases h : (PagePath.of order board dtb vaddr).tableAddr = a
  · rw [if_pos h, PageEntry.markAccessed_eq_mark, decide_eq_true (.inr h.symm), ← h]
    rfl
  · rw [if_neg h, loadWord_storeWord order _ hdirectory ha]
    by_cases h' : (PagePath.of order board dtb vaddr).directoryAddr = a
    · rw [if_pos h', PageEntry.markAccessed_eq_mark, decide_eq_true (.inl h'.symm), ← h']
      rfl
    · have hother : ¬(a = (PagePath.of order board dtb vaddr).directoryAddr ∨
          a = (PagePath.of order board dtb vaddr).tableAddr) := by
        rintro (e | e)
        · exact h' e.symm
        · exact h e.symm
      rw [if_neg h', decide_eq_false hother, PageEntry.mark_false]

/-- Both entries of an address have their marks once an access to it is on
record, be they two words or one. -/
theorem PagePath.of_record (hdtb : PageAligned dtb) (board : β) (vaddr : VirtAddr) :
    of order ((of order board dtb vaddr).record order board) dtb vaddr =
      { of order board dtb vaddr with
        directory := (of order board dtb vaddr).directory.mark true false
        table := (of order board dtb vaddr).table.mark true false } := by
  have hdirectory := loadWord_record order hdtb board vaddr
    (directoryAddr_aligned order board dtb vaddr hdtb)
  rw [decide_eq_true (.inl rfl)] at hdirectory
  have htable := loadWord_record order hdtb board vaddr (tableAddr_aligned order board dtb vaddr)
  rw [decide_eq_true (.inr rfl)] at htable
  have hframe := (congrArg PageEntry.frame hdirectory).trans (PageEntry.frame_mark _ true false)
  obtain ⟨htableAddr, hentry⟩ := table_of_frame_eq hframe
  exact PagePath.ext rfl hdirectory htableAddr (hentry.trans htable)

theorem record_keepsTables (hdtb : PageAligned dtb) (board : β) (vaddr : VirtAddr) :
    TablesKept order dtb board ((PagePath.of order board dtb vaddr).record order board) :=
  WordsMarked.tablesKept (fun _ ha => ⟨_, _, loadWord_record order hdtb board vaddr ha⟩) hdtb

variable {order} in
/-- Storing a word where it was read leaves memory as it is. -/
theorem readByte_storeWord_loadWord {source board : β}
    (hsame : ∀ a, Bus.readByte board a = Bus.readByte source a) (addr a : PhysAddr) :
    Bus.readByte (Bus.storeWord order board addr (Bus.loadWord order source addr)) a =
      Bus.readByte source a := by
  rw [readByte_storeWord]
  split
  · next h =>
      have haddr : addr + BitVec.ofNat 32 (a - addr).toNat = a := by bv_omega
      rw [byteOf_loadWord order source addr (order.place_lt h), order.place_place h, haddr]
  · exact hsame a

end Record

end I860
