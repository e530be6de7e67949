import I860.Proofs.Footprints
import I860.Proofs.Pages

/-!
# Where an access to data reaches

Only the first byte of an operand has its address translated, and only once. On
a processor that insists on alignment this is as good as translating each byte,
because an aligned operand lies in one page: the address of byte `k` is that of
byte 0 and `k` more, before the translation and after it
(`Mmu.translate_add`). The data breakpoint is compared in the same spirit, whole
operands instead of bytes, and again alignment makes the two the same
(`Width.and_alignMask_eq_iff`).

`Admitted` is what the checks come to, byte by byte. An access completes if and
only if it is admitted, and `DataEnds` says of either outcome what memory looks
like then: as before, but for the bytes that were stored and the accessed bits
of the two entries of the address.
-/

namespace I860

/-! ## Translations -/

section Translation

variable {β : Type} [Bus β]

theorem walk_add (order : ByteOrder) (board : β) (dtb : Word) {vaddr : VirtAddr} {k : Nat}
    (h : vaddr.toNat % 4096 + k < 4096) (access : AccessKind) (who : Privilege) :
    walk order board dtb (vaddr + BitVec.ofNat 32 k) access who =
      walk order board dtb vaddr access who := by
  rw [walk_eq, walk_eq, PagePath.of_congr order board dtb vaddr (VirtAddr.pageNumber_add h)]

/-- The bytes of a page are translated alike. -/
theorem Mmu.translate_add (m : Mmu) (order : ByteOrder) (board : β) (dirbase : Dirbase)
    {vaddr : VirtAddr} {k : Nat} (h : vaddr.toNat % 4096 + k < 4096) (access : AccessKind)
    (who : Privilege) :
    m.translate order board dirbase (vaddr + BitVec.ofNat 32 k) access who =
      ((m.translate order board dirbase vaddr access who).1.map (· + BitVec.ofNat 32 k),
        (m.translate order board dirbase vaddr access who).2) := by
  have hwalk : m.translateByWalk order board dirbase.dtb (vaddr + BitVec.ofNat 32 k) access who =
      ((m.translateByWalk order board dirbase.dtb vaddr access who).1.map (· + BitVec.ofNat 32 k),
        (m.translateByWalk order board dirbase.dtb vaddr access who).2) := by
    unfold translateByWalk
    rw [walk_add order board dirbase.dtb h, VirtAddr.pageNumber_add h]
    dsimp only
    split
    · rfl
    · next t _ _ => rw [t.address_add h]; rfl
  unfold translate
  rw [VirtAddr.pageNumber_add h, hwalk]
  split
  · rfl
  · split
    · rfl
    · next t _ =>
        split
        · rfl
        · split
          · rfl
          · rw [t.address_add h]; rfl

end Translation

/-! ## The bytes that are stored -/

section Stored

variable {β : Type} [Bus β] [PlainMemory β]

theorem ByteOrder.byteOffset_eq_place (order : ByteOrder) (i : Nat) :
    order.byteOffset i = BitVec.ofNat 32 (order.place 8 i) := by
  cases order <;> rfl

theorem ByteOrder.add_byteOffset_eq_iff (order : ByteOrder) {paddr a : PhysAddr} {i : Nat}
    (hi : i < 8) :
    paddr + order.byteOffset i = a ↔ (a - paddr).toNat = order.place 8 i := by
  have hplace := order.place_lt hi
  rw [byteOffset_eq_place]
  constructor
  · rintro rfl
    bv_omega
  · intro h
    rw [← h]
    bv_omega

/-- The byte at a distance from the start of a double is among those selected. -/
def ByteOrder.Selects (order : ByteOrder) (mask : Byte) (dist : Nat) : Prop :=
  dist < 8 ∧ mask.getLsbD (order.place 8 dist) = true

instance (order : ByteOrder) (mask : Byte) (dist : Nat) : Decidable (order.Selects mask dist) :=
  inferInstanceAs (Decidable (_ ∧ _))

omit [Bus β] [PlainMemory β] in
theorem byteOf_double (value : Double) {k : Nat} (hk : k < 8) :
    (value >>> (8 * k)).setWidth 8 = byteOf (value.setWidth 128) k := by
  apply BitVec.eq_of_getLsbD_eq
  intro j hj
  have hlt : 8 * k + j < 128 := by omega
  rw [getLsbD_byteOf, BitVec.getLsbD_setWidth, BitVec.getLsbD_ushiftRight,
    BitVec.getLsbD_setWidth]
  simp [hlt]

/-- The first `n` bytes of a double have been stored, as far as they are
selected. -/
theorem readByte_storeSelected_upTo (order : ByteOrder) (board : β) (paddr a : PhysAddr)
    (value : Double) (mask : Byte) {n : Nat} (hn : n ≤ 8) :
    Bus.readByte ((List.range n).foldl (fun board i =>
        if mask.getLsbD i then
          Bus.writeByte board (paddr + order.byteOffset i) ((value >>> (8 * i)).setWidth 8)
        else board) board) a =
      if order.Selects mask (a - paddr).toNat ∧ order.place 8 (a - paddr).toNat < n then
        byteOf (value.setWidth 128) (order.place 8 (a - paddr).toNat)
      else Bus.readByte board a := by
  induction n with
  | zero => simp
  | succ n ih =>
      have hreach : paddr + order.byteOffset n = a ↔ (a - paddr).toNat = order.place 8 n :=
        order.add_byteOffset_eq_iff (by omega)
      have hback : order.place 8 (order.place 8 n) = n := order.place_place (by omega)
      rw [List.range_succ, List.foldl_append, List.foldl_cons, List.foldl_nil]
      by_cases hlast : order.Selects mask (a - paddr).toNat ∧
          order.place 8 (a - paddr).toNat = n
      · obtain ⟨hselects, hplace⟩ := hlast
        have hselected : mask.getLsbD n = true := hplace ▸ hselects.2
        have hhere : (a - paddr).toNat = order.place 8 n := by
          rw [← hplace, order.place_place hselects.1]
        have hreached : order.place 8 (a - paddr).toNat < n + 1 := by omega
        rw [if_pos hselected, PlainMemory.readByte_writeByte, if_pos (hreach.2 hhere),
          if_pos ⟨hselects, hreached⟩, hplace]
        exact byteOf_double value (by omega)
      · have hkept : ∀ board' : β, Bus.readByte (if mask.getLsbD n then
            Bus.writeByte board' (paddr + order.byteOffset n) ((value >>> (8 * n)).setWidth 8)
            else board') a = Bus.readByte board' a := by
          intro board'
          split
          · next hselected =>
              rw [PlainMemory.readByte_writeByte, if_neg]
              intro hhere
              have hdist := hreach.1 hhere
              have hplace : order.place 8 (a - paddr).toNat = n := by rw [hdist, hback]
              have hnear : (a - paddr).toNat < 8 := hdist ▸ order.place_lt (by omega)
              exact hlast ⟨⟨hnear, hplace ▸ hselected⟩, hplace⟩
          · rfl
        have hsame : (order.Selects mask (a - paddr).toNat ∧
              order.place 8 (a - paddr).toNat < n) ↔
            (order.Selects mask (a - paddr).toNat ∧
              order.place 8 (a - paddr).toNat < n + 1) := by
          constructor
          · rintro ⟨hselects, hlt⟩
            exact ⟨hselects, by omega⟩
          · rintro ⟨hselects, hlt⟩
            have hne : order.place 8 (a - paddr).toNat ≠ n := fun h => hlast ⟨hselects, h⟩
            exact ⟨hselects, by omega⟩
        rw [hkept, ih (by omega)]
        simp only [hsame]

theorem readByte_storeSelected (order : ByteOrder) (board : β) (paddr a : PhysAddr)
    (value : Double) (mask : Byte) :
    Bus.readByte (storeSelected order board paddr value mask) a =
      if order.Selects mask (a - paddr).toNat then
        byteOf (value.setWidth 128) (order.place 8 (a - paddr).toNat)
      else Bus.readByte board a := by
  rw [storeSelected, readByte_storeSelected_upTo order board paddr a value mask (Nat.le_refl 8)]
  by_cases h : order.Selects mask (a - paddr).toNat
  · rw [if_pos h, if_pos ⟨h, order.place_lt h.1⟩]
  · rw [if_neg h, if_neg (fun hboth => h hboth.1)]

/-- A mask that selects all bytes is stored by the way of all stores, and the bytes
are the same. -/
theorem readByte_masked (order : ByteOrder) (board : β) (paddr a : PhysAddr) (value : Double)
    (mask : Byte) :
    Bus.readByte (if mask = 0xff#8 then Bus.store order board paddr .double (value.setWidth 128)
        else storeSelected order board paddr value mask) a =
      if order.Selects mask (a - paddr).toNat then
        byteOf (value.setWidth 128) (order.place 8 (a - paddr).toNat)
      else Bus.readByte board a := by
  split
  · next hall =>
      have hselects : order.Selects mask (a - paddr).toNat ↔ (a - paddr).toNat < 8 := by
        refine ⟨And.left, fun hdist => ⟨hdist, ?_⟩⟩
        have hones : ∀ k < 8, (0xff#8).getLsbD k = true := by decide
        rw [hall]
        exact hones _ (order.place_lt hdist)
      rw [readByte_store]
      simp only [hselects]
      rfl
  · exact readByte_storeSelected order board paddr a value mask

end Stored

/-! ## Accesses -/

section Access

variable {β : Type} [Bus β]

/-- Memory is as before, but for the accessed bits of the two entries by which
an address is translated. -/
def OnlyMarked (c : Cpu β) (vaddr : VirtAddr) (board : β) : Prop :=
  ∀ a, Bus.readByte board a = Bus.readByte c.board a ∨
    (Bus.readByte board a = Bus.readByte c.board a ||| 0x20#8 ∧
      c.control.dirbase.ate = true ∧
      (a = c.order.accessedByte (c.pathOf vaddr).directoryAddr ∨
        a = c.order.accessedByte (c.pathOf vaddr).tableAddr))

theorem OnlyMarked.refl (c : Cpu β) (vaddr : VirtAddr) : OnlyMarked c vaddr c.board :=
  fun _ => .inl rfl

/-- Whether the data breakpoint is set for an access. -/
def Cpu.watches (c : Cpu β) (access : AccessKind) : Bool :=
  if access.isWrite then c.control.psr.bw else c.control.psr.br

/-- An operand may be accessed, and its first byte is at `paddr`. -/
structure Admitted (c : Cpu β) (vaddr : VirtAddr) (width : Width) (access : AccessKind)
    (paddr : PhysAddr) : Prop where
  aligned : vaddr.toNat % width.bytes = 0
  unwatched : c.watches access = true →
    ∀ k < width.bytes, vaddr + BitVec.ofNat 32 k ≠ c.control.db
  translated : ∀ k < width.bytes, (c.translated (vaddr + BitVec.ofNat 32 k) access).1 =
    .ok (paddr + BitVec.ofNat 32 k)
  samePage : ∀ k < width.bytes,
    VirtAddr.pageNumber (vaddr + BitVec.ofNat 32 k) = vaddr.pageNumber

/-- How an access ends: with all of its bytes moved, or with a trap and none.
Memory `walked` is what the translation leaves, and `moved` says what becomes
of it and of the result. -/
inductive DataEnds {α : Type} (c : Cpu β) (vaddr : VirtAddr) (width : Width)
    (access : AccessKind) (moved : PhysAddr → β → α → Cpu β → Prop) :
    EStateM.Result Fault (Cpu β) α → Prop
  | done {paddr : PhysAddr} {walked : β} {a : α} {d : Cpu β}
      (admitted : Admitted c vaddr width access paddr) (marked : OnlyMarked c vaddr walked)
      (h : moved paddr walked a d) : DataEnds c vaddr width access moved (.ok a d)
  | refused {d : Cpu β} (reason : ∀ paddr, ¬Admitted c vaddr width access paddr)
      (recorded : d.control.psr.dat = true) (marked : OnlyMarked c vaddr d.board) :
      DataEnds c vaddr width access moved (.error (.trap (.ofKind .dataAccess)) d)

theorem Cpu.translated_marked [PlainMemory β] (c : Cpu β) (vaddr : VirtAddr)
    (access : AccessKind) : OnlyMarked c vaddr (c.translated vaddr access).2.2 := by
  have hwalk : c.control.dirbase.ate = true →
      OnlyMarked c vaddr
        (c.mmu.translateByWalk c.order c.board c.control.dirbase.dtb vaddr access
          c.privilege).2.2 := by
    intro hate
    have hrecord : OnlyMarked c vaddr
        (walk c.order c.board c.control.dirbase.dtb vaddr access c.privilege).2 := by
      rw [walk_eq]
      split
      · intro a
        refine (PagePath.readByte_record rfl rfl a).imp_right ?_
        rintro ⟨hset, hentry⟩
        exact ⟨hset, hate, hentry⟩
      · exact .refl c vaddr
    unfold Mmu.translateByWalk
    dsimp only
    split
    · next hwalked => rw [hwalked] at hrecord; exact hrecord
    · next hwalked => rw [hwalked] at hrecord; exact hrecord
  unfold Cpu.translated Mmu.translate
  split
  · exact .refl c vaddr
  · next hate =>
      have hpaged : c.control.dirbase.ate = true := by simpa using hate
      split
      · exact hwalk hpaged
      · split
        · exact .refl c vaddr
        · split
          · exact hwalk hpaged
          · exact .refl c vaddr

omit [Bus β] in
theorem Cpu.hitsBreakpoint_iff (c : Cpu β) {vaddr : VirtAddr} {width : Width}
    (haligned : vaddr.toNat % width.bytes = 0) (access : AccessKind) :
    c.hitsBreakpoint vaddr width access = true ↔
      c.watches access = true ∧ ∃ k < width.bytes, vaddr + BitVec.ofNat 32 k = c.control.db := by
  rw [← width.and_alignMask_eq_iff haligned]
  simp [hitsBreakpoint, watches]

theorem raise_dataAccess {α : Type} {c d : Cpu β} {vaddr : VirtAddr} {width : Width}
    {access : AccessKind} {moved : PhysAddr → β → α → Cpu β → Prop}
    (reason : ∀ paddr, ¬Admitted c vaddr width access paddr)
    (marked : OnlyMarked c vaddr d.board) :
    DataEnds c vaddr width access moved (raise .dataAccess d) := by
  rw [Exec.raise_apply]
  exact .refused reason rfl marked

theorem checkData_dataEnds [PlainMemory β] (c : Cpu β) (htraps : c.params.trapMisaligned = true)
    (vaddr : VirtAddr) (width : Width) {access : AccessKind}
    (hdata : access.fault = .dataAccess) :
    DataEnds c vaddr width access
      (fun paddr walked found d => found = paddr ∧ d.board = walked ∧ d.order = c.order)
      (checkData vaddr width access c) := by
  rw [checkData_eq]
  unfold Cpu.refusesData
  rw [htraps, Bool.and_true]
  by_cases haligned : vaddr &&& ~~~width.alignMask = 0#32
  · rw [haligned]
    have hmod := (width.and_not_alignMask_eq_zero_iff vaddr).1 haligned
    by_cases hhit : c.hitsBreakpoint vaddr width access = true
    · rw [hhit, Bool.or_true, if_pos rfl]
      obtain ⟨hwatches, k, hk, hdb⟩ := (c.hitsBreakpoint_iff hmod access).1 hhit
      exact raise_dataAccess (fun _ h => h.unwatched hwatches k hk hdb) (.refl c vaddr)
    · have hnone : ((0#32 != 0#32) || c.hitsBreakpoint vaddr width access) = false := by
        simpa using hhit
      rw [if_neg (by rw [hnone]; exact Bool.false_ne_true), translate_eq]
      have hmarked := c.translated_marked vaddr access
      cases hresult : (c.translated vaddr access).1 with
      | ok paddr =>
          have hadmitted : Admitted c vaddr width access paddr := by
            refine ⟨hmod, fun hwatches k hk hdb => ?_, fun k hk => ?_,
              fun k hk => VirtAddr.pageNumber_add (width.room hmod hk)⟩
            · exact hhit ((c.hitsBreakpoint_iff hmod access).2 ⟨hwatches, k, hk, hdb⟩)
            · have hadd := Mmu.translate_add c.mmu c.order c.board c.control.dirbase
                (width.room hmod hk) access c.privilege
              have hfirst := congrArg Prod.fst hadd
              rw [Cpu.translated] at hresult ⊢
              rw [hfirst, hresult]
              rfl
          exact .done hadmitted hmarked ⟨rfl, rfl, rfl⟩
      | error kind =>
          have hkind : kind = .dataAccess := (Mmu.translate_fault hresult).trans hdata
          rw [hkind]
          refine raise_dataAccess (fun paddr h => ?_) hmarked
          have hfirst := h.translated 0 width.bytes_pos
          rw [BitVec.add_zero, hresult] at hfirst
          cases hfirst
  · have hmisaligned : (vaddr &&& ~~~width.alignMask != 0#32) = true := by
      simpa using haligned
    rw [hmisaligned, Bool.true_or, if_pos rfl]
    refine raise_dataAccess (fun _ h => haligned ?_) (.refl c vaddr)
    exact (width.and_not_alignMask_eq_zero_iff vaddr).2 h.aligned

/-- What follows the checks has to complete. -/
theorem DataEnds.bind {α : Type} {c : Cpu β} {vaddr : VirtAddr} {width : Width}
    {access : AccessKind} {x : Exec β PhysAddr} {f : PhysAddr → Exec β α}
    {moved : PhysAddr → β → α → Cpu β → Prop}
    (hx : DataEnds c vaddr width access
      (fun paddr walked found d => found = paddr ∧ d.board = walked ∧ d.order = c.order) (x c))
    (hf : ∀ paddr d, d.order = c.order →
      ∃ a e, f paddr d = .ok a e ∧ moved paddr d.board a e) :
    DataEnds c vaddr width access moved ((x >>= f) c) := by
  rw [Exec.bind_apply]
  generalize x c = r at hx
  cases hx with
  | @done paddr _ _ d admitted marked h =>
      obtain ⟨rfl, rfl, horder⟩ := h
      obtain ⟨a, e, hfe, hmoved⟩ := hf _ d horder
      dsimp only
      rw [hfe]
      exact .done admitted marked hmoved
  | refused reason recorded marked => exact .refused reason recorded marked

theorem DataEnds.of_ok {α : Type} {c : Cpu β} {vaddr : VirtAddr} {width : Width}
    {access : AccessKind} {moved : PhysAddr → β → α → Cpu β → Prop} {a : α} {d : Cpu β}
    (h : DataEnds c vaddr width access moved (.ok a d)) :
    ∃ paddr walked, Admitted c vaddr width access paddr ∧ OnlyMarked c vaddr walked ∧
      moved paddr walked a d := by
  cases h with
  | done admitted marked h => exact ⟨_, _, admitted, marked, h⟩

theorem DataEnds.of_error {α : Type} {c : Cpu β} {vaddr : VirtAddr} {width : Width}
    {access : AccessKind} {moved : PhysAddr → β → α → Cpu β → Prop} {fault : Fault} {d : Cpu β}
    (h : DataEnds c vaddr width access moved (.error fault d)) :
    fault = .trap (.ofKind .dataAccess) ∧ (∀ paddr, ¬Admitted c vaddr width access paddr) ∧
      d.control.psr.dat = true ∧ OnlyMarked c vaddr d.board := by
  cases h with
  | refused reason recorded marked => exact ⟨rfl, reason, recorded, marked⟩

variable [PlainMemory β]

/-- On a processor that insists on alignment, an access to data completes if
and only if the operand is aligned, is not watched, and has its bytes
translated. Then each byte has moved to or from the address that it translates
to by itself, and else the access has left a data access trap and moved
nothing. Memory otherwise has got accessed bits at most. -/
theorem data_access_contained (c : Cpu β) (htraps : c.params.trapMisaligned = true)
    (vaddr : VirtAddr) :
    (∀ width, DataEnds c vaddr width .read
      (fun paddr walked v d => d.board = walked ∧ ∀ k < width.bytes,
        byteOf v (c.order.place width.bytes k) =
          Bus.readByte walked (paddr + BitVec.ofNat 32 k))
      (readMem vaddr width c)) ∧
    (∀ width value, DataEnds c vaddr width .write
      (fun paddr walked _ d => ∀ a, Bus.readByte d.board a =
        if (a - paddr).toNat < width.bytes then
          byteOf value (c.order.place width.bytes (a - paddr).toNat)
        else Bus.readByte walked a)
      (writeMem vaddr width value c)) ∧
    (∀ value mask, DataEnds c vaddr .double .write
      (fun paddr walked _ d => ∀ a, Bus.readByte d.board a =
        if c.order.Selects mask (a - paddr).toNat then
          byteOf (value.setWidth 128) (c.order.place 8 (a - paddr).toNat)
        else Bus.readByte walked a)
      (writeMasked vaddr value mask c)) := by
  refine ⟨fun width => ?_, fun width value => ?_, fun value mask => ?_⟩
  · refine (checkData_dataEnds c htraps vaddr width rfl).bind fun paddr d horder =>
      ⟨_, d, rfl, rfl, fun k hk => ?_⟩
    rw [horder, byteOf_load c.order d.board paddr (c.order.place_lt hk),
      c.order.place_place hk]
  · refine (checkData_dataEnds c htraps vaddr width rfl).bind fun paddr d horder =>
      ⟨_, _, rfl, fun a => ?_⟩
    dsimp only
    rw [horder, readByte_store]
  · refine (checkData_dataEnds c htraps vaddr .double rfl).bind fun paddr d horder =>
      ⟨_, _, rfl, fun a => ?_⟩
    dsimp only
    rw [horder]
    exact readByte_masked c.order d.board paddr a value mask

end Access

/-- The page at `0x3000` lies at `0x5000`, and reads of `0x3006` are watched. -/
def watchedPage : Cpu OpenMemory :=
  let tables := OpenMemory.ofBlocks [(0x1000#32, [0x2001#32]), (0x200c#32, [0x5001#32]),
    (0x5000#32, [0x11223344#32, 0x55667788#32])]
  (((Cpu.powerUp tables .default).reset.writeControl .dirbase 0x1001#32).writeControl .db
    0x3006#32).writeControl .psr 0x1#32

/-- The word before the watched byte can be read, the double that it is in
cannot. -/
theorem data_access_contained_of_watched :
    watchedPage.params.trapMisaligned = true ∧
      (∃ v d, readMem 0x3000#32 .word watchedPage = .ok v d ∧ byteOf v 3 = 0x11#8 ∧
        (watchedPage.translated 0x3003#32 .read).1 = .ok 0x5003#32) ∧
      (∃ d, readMem 0x3000#32 .double watchedPage = .error (.trap (.ofKind .dataAccess)) d ∧
        d.control.psr.dat = true) := by
  have htraps : watchedPage.params.trapMisaligned = true := by decide +kernel
  have hwhole : (answerOf (readMem 0x3000#32 .word watchedPage)).toOption =
      some 0x11223344#128 := by decide +kernel
  have hrefused : (answerOf (readMem 0x3000#32 .double watchedPage)).toOption = none := by
    decide +kernel
  have hplace : (watchedPage.translated 0x3000#32 .read).1.toOption = some 0x5000#32 := by
    decide +kernel
  obtain ⟨hread, -, -⟩ := data_access_contained watchedPage htraps 0x3000#32
  have hword := hread .word
  have hdouble := hread .double
  refine ⟨htraps, ?_, ?_⟩
  · cases hrun : readMem 0x3000#32 .word watchedPage with
    | ok v d =>
        rw [hrun] at hword hwhole
        obtain ⟨paddr, -, admitted, -, -⟩ := hword.of_ok
        have hfirst := admitted.translated 0 (by decide)
        rw [BitVec.add_zero, BitVec.add_zero] at hfirst
        rw [hfirst] at hplace
        obtain rfl : paddr = 0x5000#32 := Option.some.inj hplace
        obtain rfl : v = 0x11223344#128 := Option.some.inj hwhole
        exact ⟨_, d, rfl, by decide, admitted.translated 3 (by decide)⟩
    | error fault d =>
        rw [hrun] at hwhole
        cases hwhole
  · cases hrun : readMem 0x3000#32 .double watchedPage with
    | ok v d =>
        rw [hrun] at hrefused
        cases hrefused
    | error fault d =>
        rw [hrun] at hdouble
        obtain ⟨rfl, -, hrecorded, -⟩ := hdouble.of_error
        exact ⟨d, rfl, hrecorded⟩

end I860
