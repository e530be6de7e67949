import I860.Paging.Mmu
import I860.Proofs.PlainMemory
import Mathlib.Logic.Relation

/-!
# What translating an address leaves in memory

A translation may walk the page tables, and a walk that is granted records
the access in both entries of its path. `MarksAccessed` is the relation this
induces on boards: one is reached from the other by walks that recorded
accesses, whatever they were for. A translation never does anything else to a
board (`Mmu.translate_marksAccessed`).

On plain memory that is very little. `MarksAccessed.readByte` says that every
byte either is what it was or has got bit 5, and then it is the byte of a
page-table entry that holds the accessed bit. The statement has to allow for
entries that overlap. A walk reads both entries before it writes either, so
the second write may put back what the first one changed.
-/

namespace I860

namespace ByteOrder

/-- The byte of the page-table entry at `addr` that holds the accessed bit. -/
def accessedByte (order : ByteOrder) (addr : PhysAddr) : PhysAddr :=
  addr + BitVec.ofNat 32 (order.place 4 0)

theorem place_place (order : ByteOrder) {count k : Nat} (hk : k < count) :
    order.place count (order.place count k) = k := by
  cases order with
  | little => rfl
  | big => simp only [place]; omega

theorem place_lt (order : ByteOrder) {count k : Nat} (hk : k < count) :
    order.place count k < count := by
  cases order with
  | little => exact hk
  | big => simp only [place]; omega

/-- Among the bytes of an entry the one that holds the accessed bit is the one
that ends up least significant. -/
theorem place_eq_zero_iff (order : ByteOrder) {addr a : PhysAddr}
    (h : (a - addr).toNat < 4) :
    order.place 4 (a - addr).toNat = 0 ↔ a = order.accessedByte addr := by
  rw [← BitVec.toNat_inj]
  cases order with
  | little => simp only [place, accessedByte]; bv_omega
  | big => simp only [place, accessedByte]; bv_omega

end ByteOrder

section Bytes

variable {β : Type} [Bus β] [PlainMemory β]

theorem getElem?_loadEach (readByte : PhysAddr → Byte) (addr : PhysAddr)
    (count k : Nat) (hk : k < count) :
    (loadEach readByte addr count)[k]? = some (readByte (addr + BitVec.ofNat 32 k)) := by
  induction count generalizing addr k with
  | zero => omega
  | succ n ih =>
      cases k with
      | zero => simp [loadEach]
      | succ k =>
          rw [loadEach, List.getElem?_cons_succ, ih _ _ (by omega)]
          congr 2
          bv_omega

@[simp] theorem length_loadEach (readByte : PhysAddr → Byte) (addr : PhysAddr)
    (count : Nat) : (loadEach readByte addr count).length = count := by
  induction count generalizing addr with
  | zero => rfl
  | succ n ih => simp [loadEach, ih]

theorem byteOf_setWidth_word (v : Quad) {k : Nat} (hk : k < 4) :
    byteOf ((v.setWidth 32).setWidth 128) k = byteOf v k := by
  apply BitVec.eq_of_getLsbD_eq
  intro j hj
  have hlt : 8 * k + j < 32 := by omega
  have hlt' : 8 * k + j < 128 := by omega
  rw [getLsbD_byteOf, getLsbD_byteOf, BitVec.getLsbD_setWidth, BitVec.getLsbD_setWidth]
  simp [hlt, hlt']

theorem byteOf_load (order : ByteOrder) (board : β) (addr : PhysAddr) {width : Width}
    {k : Nat} (hk : k < width.bytes) :
    byteOf (Bus.load order board addr width) k =
      Bus.readByte board (addr + BitVec.ofNat 32 (order.place width.bytes k)) := by
  have hlen : (loadEach (Bus.readByte board) addr width.bytes).length = width.bytes :=
    length_loadEach ..
  have hsmall : width.bytes ≤ 16 := by cases width <;> decide
  rw [Bus.load, PlainMemory.readBytes_eq, ByteOrder.byteOf_join order _ k (by rwa [hlen])
    (by rwa [hlen]), hlen, getElem?_loadEach _ _ _ _ (order.place_lt hk)]
  rfl

theorem byteOf_loadWord (order : ByteOrder) (board : β) (addr : PhysAddr) {k : Nat}
    (hk : k < 4) :
    byteOf ((Bus.loadWord order board addr).setWidth 128) k =
      Bus.readByte board (addr + BitVec.ofNat 32 (order.place 4 k)) := by
  rw [Bus.loadWord, byteOf_setWidth_word _ hk]
  have hword : k < Width.bytes .word := hk
  exact byteOf_load order board addr hword

/-- A byte after a store: the one of the operand that belongs there, or what it
was. -/
theorem readByte_store (order : ByteOrder) (board : β) (addr a : PhysAddr) (width : Width)
    (v : Quad) :
    Bus.readByte (Bus.store order board addr width v) a =
      if (a - addr).toNat < width.bytes then
        byteOf v (order.place width.bytes (a - addr).toNat)
      else Bus.readByte board a := by
  have hlen : (order.split width v).length ≤ 2 ^ 32 := by
    rw [ByteOrder.length_split]
    cases width <;> decide
  rw [Bus.store, PlainMemory.readByte_writeBytes _ _ _ _ hlen]
  split
  · next h => rw [ByteOrder.getElem?_split _ _ _ _ h]; rfl
  · next h =>
      rw [List.getElem?_eq_none (by rw [ByteOrder.length_split]; exact Nat.le_of_not_lt h)]
      rfl

theorem readByte_storeWord (order : ByteOrder) (board : β) (addr a : PhysAddr)
    (v : Word) :
    Bus.readByte (Bus.storeWord order board addr v) a =
      if (a - addr).toNat < 4 then
        byteOf (v.setWidth 128) (order.place 4 (a - addr).toNat)
      else Bus.readByte board a :=
  readByte_store order board addr a .word _

theorem byteOf_accessedBit {k : Nat} (hk : k < 4) :
    byteOf (PageEntry.accessedBit.setWidth 128) k = if k = 0 then 0x20#8 else 0#8 := by
  match k with
  | 0 | 1 | 2 | 3 => rfl
  | k + 4 => omega

/-- An entry read from one board is written to another with its access
recorded. -/
theorem readByte_storeWord_markAccessed (order : ByteOrder) (source board : β)
    (addr a : PhysAddr) :
    Bus.readByte (Bus.storeWord order board addr
        (PageEntry.markAccessed ⟨Bus.loadWord order source addr⟩).raw) a =
      if a = order.accessedByte addr then Bus.readByte source a ||| 0x20#8
      else if (a - addr).toNat < 4 then Bus.readByte source a
      else Bus.readByte board a := by
  rw [readByte_storeWord]
  by_cases h : (a - addr).toNat < 4
  · have hk := order.place_lt h
    have haddr : addr + BitVec.ofNat 32 (a - addr).toNat = a := by bv_omega
    rw [if_pos h, PageEntry.markAccessed, BitVec.setWidth_or, byteOf_or,
      byteOf_loadWord order source addr hk, order.place_place h, haddr,
      byteOf_accessedBit hk]
    by_cases ha : a = order.accessedByte addr
    · rw [if_pos ((order.place_eq_zero_iff h).2 ha), if_pos ha]
    · rw [if_neg (fun e => ha ((order.place_eq_zero_iff h).1 e)), if_neg ha, if_pos h]
      simp
  · have ha : a ≠ order.accessedByte addr := by
      intro e
      apply h
      subst e
      cases order with
      | little => simp only [ByteOrder.accessedByte, ByteOrder.place]; bv_omega
      | big => simp only [ByteOrder.accessedByte, ByteOrder.place]; bv_omega
    rw [if_neg h, if_neg ha, if_neg h]

end Bytes

variable {β : Type} [Bus β]

theorem PagePath.entries_of_resolve {order : ByteOrder} {board : β} {dtb : Word}
    {vaddr : VirtAddr} {access : AccessKind} {who : Privilege} {path : PagePath}
    (h : resolve order board dtb vaddr access who = some path) :
    path.directory = ⟨Bus.loadWord order board path.directoryAddr⟩ ∧
      path.table = ⟨Bus.loadWord order board path.tableAddr⟩ := by
  simp only [resolve] at h
  split at h
  · split at h
    · cases h
      exact ⟨rfl, rfl⟩
    · cases h
  · cases h

/-- A walk through the tables at `dtb` has recorded an access. -/
inductive RecordsWalk (order : ByteOrder) (dtb : Word) (board : β) : β → Prop
  | mk {vaddr : VirtAddr} {access : AccessKind} {who : Privilege} {path : PagePath}
      (resolved : PagePath.resolve order board dtb vaddr access who = some path) :
      RecordsWalk order dtb board (path.record order board)

/-- Walks through the tables at `dtb` have recorded accesses, and nothing else
has happened to the board. -/
def MarksAccessed (order : ByteOrder) (dtb : Word) : β → β → Prop :=
  Relation.ReflTransGen (RecordsWalk order dtb)

/-- The byte at `a` holds the accessed bit of one of the two entries by which
the tables at `dtb` grant some access. -/
def HoldsAccessedBit (order : ByteOrder) (dtb : Word) (board : β) (a : PhysAddr) : Prop :=
  ∃ (vaddr : VirtAddr) (access : AccessKind) (who : Privilege) (path : PagePath),
    PagePath.resolve order board dtb vaddr access who = some path ∧
      (a = order.accessedByte path.directoryAddr ∨ a = order.accessedByte path.tableAddr)

theorem walk_marksAccessed (order : ByteOrder) (board : β) (dtb : Word)
    (vaddr : VirtAddr) (access : AccessKind) (who : Privilege) :
    MarksAccessed order dtb board (walk order board dtb vaddr access who).2 := by
  unfold walk
  split
  · exact .refl
  · next path hpath =>
      have hstep : RecordsWalk order dtb board (path.record order board) := .mk hpath
      dsimp only
      split
      · exact .single hstep
      · exact .single hstep

theorem Mmu.translateByWalk_marksAccessed (m : Mmu) (order : ByteOrder) (board : β)
    (dtb : Word) (vaddr : VirtAddr) (access : AccessKind) (who : Privilege) :
    MarksAccessed order dtb board
      (m.translateByWalk order board dtb vaddr access who).2.2 := by
  have hwalk := walk_marksAccessed order board dtb vaddr access who
  unfold translateByWalk
  dsimp only
  split
  · next hw => rw [hw] at hwalk; exact hwalk
  · next hw => rw [hw] at hwalk; exact hwalk

/-- A translation answers by itself and leaves the board alone, or it walks. -/
theorem Mmu.translate_cases (m : Mmu) (order : ByteOrder) (board : β) (dirbase : Dirbase)
    (vaddr : VirtAddr) (access : AccessKind) (who : Privilege) :
    (∃ result, m.translate order board dirbase vaddr access who = (result, m, board) ∧
        ∀ kind, result = .error kind → kind = access.fault) ∨
      (∃ paddr, m.translate order board dirbase vaddr access who =
        (.ok paddr, { m with hits := m.hits + 1 }, board)) ∨
      m.translate order board dirbase vaddr access who =
        m.translateByWalk order board dirbase.dtb vaddr access who := by
  unfold translate
  split
  · exact .inl ⟨_, rfl, fun kind h => by cases h⟩
  · split
    · exact .inr (.inr rfl)
    · split
      · exact .inl ⟨_, rfl, fun kind h => (Except.error.inj h).symm⟩
      · split
        · exact .inr (.inr rfl)
        · exact .inr (.inl ⟨_, rfl⟩)

/-- A translation does nothing to the board but record accesses. -/
theorem Mmu.translate_marksAccessed (m : Mmu) (order : ByteOrder) (board : β)
    (dirbase : Dirbase) (vaddr : VirtAddr) (access : AccessKind) (who : Privilege) :
    MarksAccessed order dirbase.dtb board
      (m.translate order board dirbase vaddr access who).2.2 := by
  obtain ⟨_, h, -⟩ | ⟨_, h⟩ | h := m.translate_cases order board dirbase vaddr access who
  · rw [h]
    exact .refl
  · rw [h]
    exact .refl
  · rw [h]
    exact translateByWalk_marksAccessed ..

/-- A translation raises no trap but the one for its kind of access. -/
theorem Mmu.translate_fault {m : Mmu} {order : ByteOrder} {board : β} {dirbase : Dirbase}
    {vaddr : VirtAddr} {access : AccessKind} {who : Privilege} {kind : TrapKind}
    (h : (m.translate order board dirbase vaddr access who).1 = .error kind) :
    kind = access.fault := by
  obtain ⟨_, heq, hrefused⟩ | ⟨_, heq⟩ | heq :=
    m.translate_cases order board dirbase vaddr access who
  · rw [heq] at h
    exact hrefused kind h
  · rw [heq] at h
    cases h
  · rw [heq] at h
    unfold translateByWalk walk at h
    split at h
    · next hw =>
        split at hw
        · cases hw; cases h; rfl
        · dsimp only at hw
          split at hw
          · next hclean =>
              have hwrite : access = .write := by
                cases access with
                | write => rfl
                | fetch | read => simp [AccessKind.isWrite] at hclean
              cases hw; cases h
              rw [hwrite]
              rfl
          · cases hw
    · cases h

theorem Mmu.translate_kind (m : Mmu) (order : ByteOrder) (board : β) (dirbase : Dirbase)
    (vaddr : VirtAddr) (access : AccessKind) (who : Privilege) (kind : TrapKind)
    (h : (m.translate order board dirbase vaddr access who).1 = .error kind) :
    kind ≠ .floatingPoint := by
  rw [translate_fault h]
  cases access <;> decide

/-- Recording an access sets the accessed bits of the two entries, and no other
bit of memory. -/
theorem PagePath.readByte_record [PlainMemory β] {order : ByteOrder} {board : β}
    {path : PagePath} (hdir : path.directory = ⟨Bus.loadWord order board path.directoryAddr⟩)
    (htab : path.table = ⟨Bus.loadWord order board path.tableAddr⟩) (a : PhysAddr) :
    Bus.readByte (path.record order board) a = Bus.readByte board a ∨
      Bus.readByte (path.record order board) a = Bus.readByte board a ||| 0x20#8 ∧
        (a = order.accessedByte path.directoryAddr ∨
          a = order.accessedByte path.tableAddr) := by
  rw [PagePath.record, htab, readByte_storeWord_markAccessed]
  by_cases ht : a = order.accessedByte path.tableAddr
  · rw [if_pos ht]
    exact .inr ⟨rfl, .inr ht⟩
  · rw [if_neg ht]
    split
    · exact .inl rfl
    · rw [hdir, readByte_storeWord_markAccessed]
      by_cases hd : a = order.accessedByte path.directoryAddr
      · rw [if_pos hd]
        exact .inr ⟨rfl, .inl hd⟩
      · rw [if_neg hd, ite_self]
        exact .inl rfl

theorem RecordsWalk.readByte [PlainMemory β] {order : ByteOrder} {dtb : Word}
    {board board' : β} (h : RecordsWalk order dtb board board') (a : PhysAddr) :
    Bus.readByte board' a = Bus.readByte board a ∨
      Bus.readByte board' a = Bus.readByte board a ||| 0x20#8 ∧
        HoldsAccessedBit order dtb board a := by
  obtain ⟨hres⟩ := h
  next vaddr access who path =>
    obtain ⟨hdir, htab⟩ := PagePath.entries_of_resolve hres
    obtain heq | ⟨hset, hbyte⟩ := PagePath.readByte_record hdir htab a
    · exact .inl heq
    · exact .inr ⟨hset, vaddr, access, who, path, hres, hbyte⟩

/-- On plain memory a byte is what it was, or it has got bit 5 and holds the
accessed bit of an entry. The entry is one of the tables as they are at some
point on the way. -/
theorem MarksAccessed.readByte [PlainMemory β] {order : ByteOrder} {dtb : Word}
    {board board' : β} (h : MarksAccessed order dtb board board') (a : PhysAddr) :
    Bus.readByte board' a = Bus.readByte board a ∨
      Bus.readByte board' a = Bus.readByte board a ||| 0x20#8 ∧
        ∃ between, MarksAccessed order dtb board between ∧
          HoldsAccessedBit order dtb between a := by
  induction h with
  | refl => exact .inl rfl
  | tail hmarks hwalk ih =>
      obtain heq | ⟨hset, hbyte⟩ := hwalk.readByte a
      · rw [heq]
        exact ih
      · refine .inr ⟨?_, _, hmarks, hbyte⟩
        obtain heq' | ⟨hset', _⟩ := ih
        · rw [hset, heq']
        · rw [hset, hset', BitVec.or_assoc, BitVec.or_self]

end I860
