import I860.Proofs.LaneGroups
import I860.Proofs.MaskedStores
import I860.Proofs.Walks

/-!
# Floating registers to memory and back

A floating store and a floating load of the same register at the same address
undo each other. In the registers nothing at all is different after a store and
a load, in whatever state the processor was. The store has had its address
translated and the answer kept, so that the load goes to the same place, whatever
the store has done to the page tables (`Translates.read_again`).

The other way round less can be said of memory. The operand is what it was, up to
the bytes of the registers that are zero, if the store goes to where the load has
been. But a kept mapping answers a load and sends the store of a page that was
clean to the tables, so it has to name the frame that they name
(`Cpu.KeepsCurrent`). And an address that is looked up in the tables has its two
entries marked, so that more is different than the operand
(`Translates.write_again`).
-/

namespace I860

/-! ## One translation after the other -/

section Translations

variable {β : Type} [Bus β] {m : Mmu} {order : ByteOrder} {board : β} {vaddr : VirtAddr}
  {access : AccessKind} {who : Privilege} {paddr paddr' : PhysAddr}

theorem Mmu.translateByWalk_ok {dtb : Word}
    (h : (m.translateByWalk order board dtb vaddr access who).1 = .ok paddr) :
    let path := PagePath.of order board dtb vaddr
    let after := (m.translateByWalk order board dtb vaddr access who).2
    (access.isWrite && !path.table.dirty) = false ∧ path.mapping.address vaddr = paddr ∧
      after.1.tlb = m.tlb.insert vaddr.pageNumber access.isWrite path.mapping ∧
      after.2 = path.record order board := by
  intro path after
  have hafter : after = (m.translateByWalk order board dtb vaddr access who).2 := rfl
  unfold translateByWalk at h hafter
  rw [walk_eq] at h hafter
  cases hgrants : path.grants access who with
  | false => simp [path, hgrants] at h
  | true =>
      cases hclean : access.isWrite && !path.table.dirty with
      | true => simp [path, hgrants, hclean] at h
      | false =>
          simp only [path, hgrants, hclean, Bool.false_eq_true, if_true, if_false] at h hafter
          rw [hafter]
          exact ⟨rfl, Except.ok.inj h, rfl, rfl⟩

/-- A translation that succeeds has found a kept mapping, or has gone to the
tables because there was none, or none for a write. -/
theorem Mmu.translate_ok {dirbase : Dirbase} (hate : dirbase.ate = true)
    (h : (m.translate order board dirbase vaddr access who).1 = .ok paddr) :
    let path := PagePath.of order board dirbase.dtb vaddr
    let after := (m.translate order board dirbase vaddr access who).2
    (∃ t, m.tlb.lookup vaddr.pageNumber = some t ∧ t.address vaddr = paddr ∧
        after.1.tlb = m.tlb ∧ after.2 = board) ∨
      ((∀ t, m.tlb.lookup vaddr.pageNumber = some t → access.isWrite = true ∧ t.dirty = false) ∧
        (access.isWrite && !path.table.dirty) = false ∧ path.mapping.address vaddr = paddr ∧
        after.1.tlb = m.tlb.insert vaddr.pageNumber access.isWrite path.mapping ∧
        after.2 = path.record order board) := by
  intro path after
  have hafter : after = (m.translate order board dirbase vaddr access who).2 := rfl
  unfold translate at h hafter
  rw [hate] at h hafter
  cases hlookup : m.tlb.lookup vaddr.pageNumber with
  | none =>
      rw [hlookup] at h hafter
      rw [hafter]
      exact .inr ⟨fun t ht => by (cases ht), translateByWalk_ok h⟩
  | some t =>
      cases hgrants : t.grants access who with
      | false => simp [hlookup, hgrants] at h
      | true =>
          cases hclean : access.isWrite && !t.dirty with
          | true =>
              simp only [hlookup, hgrants, hclean, Bool.not_true, Bool.false_eq_true, if_false,
                if_true] at h hafter
              rw [hafter]
              refine .inr ⟨fun t' ht => ?_, translateByWalk_ok h⟩
              cases ht
              simpa using hclean
          | false =>
              simp only [hlookup, hgrants, hclean, Bool.not_true, Bool.false_eq_true,
                if_false] at h hafter
              rw [hafter]
              exact .inl ⟨t, rfl, Except.ok.inj h, rfl, rfl⟩

/-- On the way from `c` to `d` an address was translated, and of what a
translation depends on only memory may be different for another reason. -/
structure Translates (c d : Cpu β) (vaddr : VirtAddr) (access : AccessKind) (paddr : PhysAddr) :
    Prop where
  translated : (c.translated vaddr access).1 = .ok paddr
  control : d.control = c.control
  order : d.order = c.order
  mmu : d.mmu = (c.translated vaddr access).2.1

/-- If a clean mapping is kept for a page, it names the frame that the tables
name. -/
def Cpu.KeepsCurrent (c : Cpu β) (vaddr : VirtAddr) : Prop :=
  c.control.dirbase.ate = true → ∀ t, c.mmu.tlb.lookup vaddr.pageNumber = some t →
    t.dirty = false → t.frame = (c.pathOf vaddr).table.frame

variable {c d : Cpu β}

theorem Cpu.translated_of_off (hoff : c.control.dirbase.ate = false) (vaddr : VirtAddr)
    (access : AccessKind) : c.translated vaddr access = (.ok vaddr, c.mmu, c.board) := by
  unfold Cpu.translated Mmu.translate
  rw [hoff]
  rfl

namespace Translates

theorem ate_eq (h : Translates c d vaddr access paddr) :
    d.control.dirbase.ate = c.control.dirbase.ate := by
  rw [h.control]

theorem again_of_off (h : Translates c d vaddr access paddr)
    (hoff : c.control.dirbase.ate = false) (access' : AccessKind) :
    d.translated vaddr access' = (.ok paddr, d.mmu, d.board) := by
  have hfirst := h.translated
  rw [Cpu.translated_of_off hoff] at hfirst
  rw [Cpu.translated_of_off (h.ate_eq.trans hoff), Except.ok.inj hfirst]

/-- The mapping that gave the address is kept. It was kept before, or the tables
have been walked for it. -/
theorem kept (h : Translates c d vaddr access paddr) (hate : c.control.dirbase.ate = true) :
    ∃ t, d.mmu.tlb.lookup vaddr.pageNumber = some t ∧ t.address vaddr = paddr ∧
      (c.mmu.tlb.lookup vaddr.pageNumber = some t ∧
          (c.translated vaddr access).2.2 = c.board ∨
        t = (c.pathOf vaddr).mapping ∧
          (c.translated vaddr access).2.2 = (c.pathOf vaddr).record c.order c.board) := by
  obtain ⟨t, hlookup, haddr, hsame, hquiet⟩ | ⟨-, -, haddr, hinserted, hrecorded⟩ :=
    Mmu.translate_ok hate h.translated
  · refine ⟨t, ?_, haddr, .inl ⟨hlookup, hquiet⟩⟩
    rw [h.mmu, Cpu.translated, hsame, hlookup]
  · refine ⟨_, ?_, haddr, .inr ⟨rfl, hrecorded⟩⟩
    rw [h.mmu, Cpu.translated, hinserted, Tlb.lookup_insert_self]

theorem read_again (h : Translates c d vaddr access paddr)
    (hread : (d.translated vaddr .read).1 = .ok paddr') :
    paddr' = paddr ∧ (d.translated vaddr .read).2.2 = d.board := by
  cases hate : c.control.dirbase.ate with
  | false =>
      rw [h.again_of_off hate] at hread ⊢
      exact ⟨(Except.ok.inj hread).symm, rfl⟩
  | true =>
      obtain ⟨t, hlookup, haddr, -⟩ := h.kept hate
      obtain ⟨t', hlookup', haddr', -, hboard⟩ | ⟨hnone, -⟩ :=
        Mmu.translate_ok (h.ate_eq.trans hate) hread
      · obtain rfl : t' = t := Option.some.inj (hlookup'.symm.trans hlookup)
        exact ⟨haddr'.symm.trans haddr, hboard⟩
      · cases (hnone t hlookup).1

variable [PlainMemory β]

theorem write_again (h : Translates c d vaddr .read paddr)
    (hboard : d.board = (c.translated vaddr .read).2.2)
    (hdtb : PageAligned c.control.dirbase.dtb) (hcurrent : c.KeepsCurrent vaddr)
    (hwrite : (d.translated vaddr .write).1 = .ok paddr') :
    paddr' = paddr ∧ OnlyMarked c vaddr (d.translated vaddr .write).2.2 := by
  have hmarked := c.translated_marked vaddr .read
  rw [← hboard] at hmarked
  cases hate : c.control.dirbase.ate with
  | false =>
      rw [h.again_of_off hate] at hwrite ⊢
      exact ⟨(Except.ok.inj hwrite).symm, hmarked⟩
  | true =>
      obtain ⟨t, hlookup, haddr, horigin⟩ := h.kept hate
      obtain ⟨t', hlookup', haddr', -, hquiet⟩ | ⟨hclean, hdirty, haddr', -⟩ :=
        Mmu.translate_ok (h.ate_eq.trans hate) hwrite
      · obtain rfl : t' = t := Option.some.inj (hlookup'.symm.trans hlookup)
        rw [Cpu.translated, hquiet]
        exact ⟨haddr'.symm.trans haddr, hmarked⟩
      -- The mapping is of a clean page, so that the store has walked.
      have hstill := (hclean t hlookup).2
      have hpath : PagePath.of d.order d.board d.control.dirbase.dtb vaddr =
          PagePath.of c.order d.board c.control.dirbase.dtb vaddr := by
        rw [h.order, h.control]
      rcases horigin with ⟨hbefore, hsame⟩ | ⟨rfl, hrecorded⟩
      · have hunread : d.board = c.board := hboard.trans hsame
        have hframe := hcurrent hate t hbefore hstill
        rw [hpath, hunread] at haddr'
        constructor
        · rw [← haddr, ← haddr', PageMapping.address, PageMapping.address, hframe]
          rfl
        · have hwritten := d.translated_marked vaddr .write
          unfold OnlyMarked Cpu.pathOf at hwritten ⊢
          rw [hpath, h.order, h.control, hunread] at hwritten
          exact hwritten
      · -- It has found the entry as the load has found it, clean, and so failed.
        have hentry : (PagePath.of c.order c.board c.control.dirbase.dtb vaddr).table.dirty =
            false := hstill
        rw [hpath, hboard, hrecorded, Cpu.pathOf,
          PagePath.of_record c.order hdtb c.board vaddr] at hdirty
        simp [hentry, AccessKind.isWrite] at hdirty

end Translates

end Translations

/-! ## The two instructions -/

section Accesses

open Execute

variable {β : Type} [Bus β] {c d : Cpu β} {i : Instruction} {slot : Exec β Unit}

theorem fst_ok (hop : i.op = .fst) (h : execute slot i c = .ok () d) :
    ∃ paddr, Translates c d (effectiveAddr c i (floatWidth i)) .write paddr ∧
      d.board = Bus.store c.order
        (c.translated (effectiveAddr c i (floatWidth i)) .write).2.2 paddr (floatWidth i)
        (readStored c.regs.floats i.dest (floatWidth i)) ∧
      d.regs.floats = c.regs.floats := by
  unfold execute at h
  rw [hop] at h
  dsimp only at h
  unfold fst at h
  rw [Exec.bind_apply, Exec.get_apply] at h
  dsimp only at h
  rw [Exec.bind_apply, writeMem_eq] at h
  cases hchecked : checkData (effectiveAddr c i (floatWidth i)) (floatWidth i) .write c with
  | error fault m =>
      rw [hchecked] at h
      cases h
  | ok paddr m =>
      obtain ⟨htranslated, rfl⟩ := translated_of_checkData hchecked
      rw [hchecked] at h
      cases h
      refine ⟨paddr, ⟨htranslated, ?_, ?_, ?_⟩, ?_, ?_⟩ <;> unfold autoIncrement <;> split <;> rfl

theorem fld_ok (hop : i.op = .fld) (h : execute slot i c = .ok () d) :
    ∃ paddr, Translates c d (effectiveAddr c i (floatWidth i)) .read paddr ∧
      d.board = (c.translated (effectiveAddr c i (floatWidth i)) .read).2.2 ∧
      d.regs.floats = writeLoaded c.regs.floats i.dest (floatWidth i)
        (Bus.load c.order d.board paddr (floatWidth i)) := by
  unfold execute at h
  rw [hop] at h
  dsimp only at h
  unfold fld at h
  rw [Exec.bind_apply, Exec.get_apply] at h
  dsimp only at h
  unfold readMem at h
  rw [Exec.bind_apply, Exec.bind_apply] at h
  cases hchecked : checkData (effectiveAddr c i (floatWidth i)) (floatWidth i) .read c with
  | error fault m =>
      rw [hchecked] at h
      cases h
  | ok paddr m =>
      obtain ⟨htranslated, rfl⟩ := translated_of_checkData hchecked
      rw [hchecked] at h
      cases h
      refine ⟨paddr, ⟨htranslated, ?_, ?_, ?_⟩, ?_, ?_⟩ <;> unfold autoIncrement <;> split <;> rfl

/-- Two instructions access the same data for the same group of lanes, of which
they name one each. -/
structure SameGroupAccess (c : Cpu β) (i j : Instruction) : Prop where
  op : j.op = i.op
  width : floatWidth j = floatWidth i
  group : (floatWidth i).SameGroup i.dest j.dest
  base : j.src2 = i.src2
  increment : j.autoIncrement = i.autoIncrement
  addr : effectiveAddr c j (floatWidth i) = effectiveAddr c i (floatWidth i)

theorem SameGroupAccess.execute_eq {j : Instruction} (h : SameGroupAccess c i j)
    (hop : i.op = .fld ∨ i.op = .fst) (slot slot' : Exec β Unit) :
    execute slot' j c = execute slot i c := by
  have hincrement : ∀ (m : Cpu β) (addr : VirtAddr),
      autoIncrement m j addr = autoIncrement m i addr := by
    intro m addr
    unfold autoIncrement
    rw [h.increment, h.base]
  have hload := fun r => writeLoaded_of_sameGroup r (floatWidth i) h.group
  have hstore := fun r => readStored_of_sameGroup r (floatWidth i) h.group
  unfold execute
  rw [h.op]
  rcases hop with hop | hop
  · rw [hop]
    dsimp only
    unfold fld
    rw [Exec.bind_apply, Exec.bind_apply, Exec.get_apply]
    simp only [h.width, h.addr, hload, hincrement]
  · rw [hop]
    dsimp only
    unfold fst
    rw [Exec.bind_apply, Exec.bind_apply, Exec.get_apply]
    simp only [h.width, h.addr, hstore, hincrement]

/-- An operand has no byte in common with the two entries by which an address is
translated. -/
def Cpu.ApartFromEntries (c : Cpu β) (vaddr : VirtAddr) (paddr : PhysAddr) (w : Width) : Prop :=
  c.control.dirbase.ate = true → ∀ a : PhysAddr, (a - paddr).toNat < w.bytes →
    4 ≤ (a - (c.pathOf vaddr).directoryAddr).toNat ∧ 4 ≤ (a - (c.pathOf vaddr).tableAddr).toNat

theorem ByteOrder.accessedByte_near (order : ByteOrder) (addr : PhysAddr) :
    (order.accessedByte addr - addr).toNat < 4 := by
  have hplace : order.place 4 0 < 4 := order.place_lt (by omega)
  rw [accessedByte, toNat_add_sub addr (by omega)]
  exact hplace

theorem OnlyMarked.readByte_of_apart {vaddr : VirtAddr} {paddr a : PhysAddr} {w : Width} {board : β}
    (h : OnlyMarked c vaddr board) (hapart : c.ApartFromEntries vaddr paddr w)
    (ha : (a - paddr).toNat < w.bytes) : Bus.readByte board a = Bus.readByte c.board a := by
  rcases h a with heq | ⟨-, hate, rfl | rfl⟩
  · exact heq
  · exact absurd (c.order.accessedByte_near _) (Nat.not_lt.2 (hapart hate _ ha).1)
  · exact absurd (c.order.accessedByte_near _) (Nat.not_lt.2 (hapart hate _ ha).2)

theorem floatWidth_bytes (i : Instruction) : (floatWidth i).bytes = 4 * (floatWidth i).lanes := by
  unfold floatWidth
  split <;> rfl

variable [PlainMemory β]

theorem wordOf_load_store (order : ByteOrder) (board : β) (paddr : PhysAddr) (i : Instruction)
    (v : Quad) {m : Nat} (hm : m < (floatWidth i).lanes) :
    wordOf (Bus.load order (Bus.store order board paddr (floatWidth i) v) paddr (floatWidth i)) m =
      wordOf v m := by
  have hbytes := floatWidth_bytes i
  rw [load_store]
  exact wordOf_low v (by omega)

end Accesses

/-! ## Round trips -/

section RoundTrips

open Execute

variable {β : Type} [Bus β] [PlainMemory β] {c d e : Cpu β} {store load : Instruction}
  {slot slot' : Exec β Unit}

theorem readLane_store_load (hstore : store.op = .fst) (hload : load.op = .fld)
    (hwidth : floatWidth load = floatWidth store) (hdest : load.dest = store.dest)
    (hstored : execute slot store c = .ok () d) (hloaded : execute slot' load d = .ok () e)
    (haddr : effectiveAddr d load (floatWidth store) = effectiveAddr c store (floatWidth store)) :
    (∀ k, e.regs.floats.readLane k = c.regs.floats.readLane k) ∧
      (c.regs.floats.ZeroLanes → e.regs.floats = c.regs.floats) := by
  obtain ⟨paddr, htranslates, hboard, hkept⟩ := fst_ok hstore hstored
  obtain ⟨paddr', hreads, hboard', hfloats⟩ := fld_ok hload hloaded
  rw [hwidth, haddr] at hreads hboard'
  obtain ⟨rfl, hquiet⟩ := htranslates.read_again hreads.translated
  have hlanes : ∀ k, e.regs.floats.readLane k = c.regs.floats.readLane k := by
    intro k
    rw [hfloats, hwidth, hdest, hkept, hboard', hquiet, hboard, htranslates.order]
    exact readLane_writeLoaded_readStored _ _
      (fun m hm => wordOf_load_store c.order _ paddr' store _ hm) k
  refine ⟨hlanes, fun hzero => FloatRegs.ext_of_readLane ?_ hzero hlanes⟩
  rw [hfloats, hkept]
  exact RegisterFile.HoldsZeros.writeLoaded hzero _ _ _

/-- How a load `i` leaves `d` and a store behind it `e`, if the operand of both is
at `paddr`. -/
structure LoadThenStore (i : Instruction) (c d e : Cpu β) (paddr : PhysAddr) : Prop where
  translated : (c.translated (effectiveAddr c i (floatWidth i)) .read).1 = .ok paddr
  loaded : ∀ k, d.regs.floats.readLane k =
    if (floatWidth i).SameGroup i.dest k ∧ 2 ≤ k.val then
      wordOf (Bus.load c.order d.board paddr (floatWidth i)) (k.val % (floatWidth i).lanes)
    else c.regs.floats.readLane k
  registers : e.regs.floats = d.regs.floats
  operand : c.ApartFromEntries (effectiveAddr c i (floatWidth i)) paddr (floatWidth i) →
    ∀ a, (a - paddr).toNat < (floatWidth i).bytes →
      Bus.readByte e.board a =
        if (floatWidth i).laneOf i.dest
            (c.order.place (floatWidth i).bytes (a - paddr).toNat) < 2 then 0#8
        else Bus.readByte c.board a
  elsewhere : ∀ a, (floatWidth i).bytes ≤ (a - paddr).toNat →
    Bus.readByte e.board a = Bus.readByte c.board a ∨
      (Bus.readByte e.board a = Bus.readByte c.board a ||| 0x20#8 ∧
        c.control.dirbase.ate = true ∧
        (a = c.order.accessedByte (c.pathOf (effectiveAddr c i (floatWidth i))).directoryAddr ∨
          a = c.order.accessedByte (c.pathOf (effectiveAddr c i (floatWidth i))).tableAddr))

theorem load_then_store (hstore : store.op = .fst) (hload : load.op = .fld)
    (hwidth : floatWidth load = floatWidth store) (hdest : load.dest = store.dest)
    (hloaded : execute slot load c = .ok () d) (hstored : execute slot' store d = .ok () e)
    (haddr : effectiveAddr d store (floatWidth load) = effectiveAddr c load (floatWidth load))
    (hdtb : PageAligned c.control.dirbase.dtb)
    (hcurrent : c.KeepsCurrent (effectiveAddr c load (floatWidth load))) :
    ∃ paddr, LoadThenStore load c d e paddr := by
  obtain ⟨paddr, htranslates, hboard, hfloats⟩ := fld_ok hload hloaded
  obtain ⟨paddr', hwrites, hboard', hkept⟩ := fst_ok hstore hstored
  rw [← hwidth, haddr] at hwrites hboard'
  obtain ⟨rfl, hmarked⟩ := htranslates.write_again hboard hdtb hcurrent hwrites.translated
  refine ⟨paddr', htranslates.translated, fun k => ?_, hkept, fun hapart a hin => ?_,
    fun a hout => ?_⟩
  · rw [hfloats]
    exact readLane_writeLoaded _ _ _ k
  · have hread : OnlyMarked c (effectiveAddr c load (floatWidth load)) d.board :=
      hboard ▸ c.translated_marked _ .read
    have hplace := c.order.place_lt hin
    have hsum : paddr' + BitVec.ofNat 32 (a - paddr').toNat = a := by bv_omega
    have hback : byteOf (Bus.load c.order d.board paddr' (floatWidth load))
        (c.order.place (floatWidth load).bytes (a - paddr').toNat) = Bus.readByte c.board a := by
      rw [byteOf_load _ _ _ hplace, c.order.place_place hin, hsum,
        hread.readByte_of_apart hapart hin]
    rw [hboard', readByte_store, if_pos hin, htranslates.order, hfloats, ← hdest,
      byteOf_readStored_writeLoaded _ _ _ (by rw [← floatWidth_bytes]; exact hplace), hback]
  · rw [hboard', readByte_store, if_neg (Nat.not_lt.2 hout)]
    exact hmarked a

/-- A floating store and a floating load of the same register, both of which
succeed at the same address. If the load comes second, no lane of the registers
has changed, and if the lanes 0 and 1 were zero the registers are the same. If
the store comes second, the lanes of the group have been loaded, but for 0 and 1,
and no other lane has changed. The operand in memory is then what it was, if it
has no byte in common with the entries of its address, but that the bytes of the
lanes 0 and 1 have become zero; and no other byte has changed, but that the two
entries may have been marked. For this no clean mapping of the page may be kept
that is out of date. A register that is not the first one of its group stands for
the group in either instruction. -/
theorem float_round_trips (slot slot' : Exec β Unit) (c : Cpu β) (hstore : store.op = .fst)
    (hload : load.op = .fld) (hwidth : floatWidth load = floatWidth store)
    (hdest : load.dest = store.dest) :
    (∀ d e, execute slot store c = .ok () d → execute slot' load d = .ok () e →
      effectiveAddr d load (floatWidth store) = effectiveAddr c store (floatWidth store) →
      (∀ k, e.regs.floats.readLane k = c.regs.floats.readLane k) ∧
        (c.regs.floats.ZeroLanes → e.regs.floats = c.regs.floats)) ∧
    (∀ d e, execute slot load c = .ok () d → execute slot' store d = .ok () e →
      effectiveAddr d store (floatWidth load) = effectiveAddr c load (floatWidth load) →
      PageAligned c.control.dirbase.dtb →
      c.KeepsCurrent (effectiveAddr c load (floatWidth load)) →
      ∃ paddr, LoadThenStore load c d e paddr) ∧
    (∀ i j, i.op = .fld ∨ i.op = .fst → SameGroupAccess c i j →
      execute slot' j c = execute slot i c) :=
  ⟨fun _ _ hstored hloaded haddr =>
      readLane_store_load hstore hload hwidth hdest hstored hloaded haddr,
    fun _ _ hloaded hstored haddr hdtb hcurrent =>
      load_then_store hstore hload hwidth hdest hloaded hstored haddr hdtb hcurrent,
    fun _ _ hop hsame => hsame.execute_eq hop slot slot'⟩

/-- The page at `0x3000` lies at `0x5000` and holds a quad. Its entries are
unmarked. -/
def quadPage : Cpu OpenMemory :=
  (Cpu.powerUp (OpenMemory.ofBlocks [(0x1000#32, [0x2007#32]), (0x200c#32, [0x5047#32]),
    (0x5000#32, [0x11111111#32, 0x22222222#32, 0x33333333#32, 0x44444444#32])])
    .default).reset.writeControl .dirbase 0x1001#32

/-- The third register stands for the first four. What was stored from them is
loaded again, and what was loaded is stored again, but for the two words that
`f0` and `f1` could not take. -/
theorem float_round_trips_of_first_quad :
    let store : Instruction := ⟨0x2c033004#32⟩
    let load : Instruction := ⟨0x24033004#32⟩
    (∃ d e, execute (pure ()) store quadPage = .ok () d ∧ execute (pure ()) load d = .ok () e ∧
        e.regs.floats = quadPage.regs.floats) ∧
      (∃ d e, execute (pure ()) load quadPage = .ok () d ∧ execute (pure ()) store d = .ok () e ∧
        d.regs.floats.readLane 3 = 0x44444444#32 ∧
        Bus.readByte e.board 0x5004#32 = 0#8 ∧ Bus.readByte e.board 0x5008#32 = 0x33#8) ∧
      execute (pure ()) ⟨0x2c003004#32⟩ quadPage = execute (pure ()) store quadPage := by
  intro store load
  have hstore : store.op = .fst := by decide +kernel
  have hload : load.op = .fld := by decide +kernel
  have hwidth : floatWidth load = floatWidth store := by decide +kernel
  have hdest : load.dest = store.dest := by decide +kernel
  obtain ⟨hregisters, hmemory, hgroup⟩ :=
    float_round_trips (pure ()) (pure ()) quadPage hstore hload hwidth hdest
  refine ⟨?_, ?_, ?_⟩
  · have hstored : ranThrough (execute (pure ()) store quadPage) = true := by decide +kernel
    have hloaded : ranThrough
        (execute (pure ()) load (finalState (execute (pure ()) store quadPage))) = true := by
      decide +kernel
    have haddr : effectiveAddr (finalState (execute (pure ()) store quadPage)) load
        (floatWidth store) = effectiveAddr quadPage store (floatWidth store) := by
      decide +kernel
    have hzero : quadPage.regs.floats.ZeroLanes := by constructor <;> decide +kernel
    refine ⟨_, _, eq_ok_of_ranThrough hstored, eq_ok_of_ranThrough hloaded, ?_⟩
    exact (hregisters _ _ (eq_ok_of_ranThrough hstored) (eq_ok_of_ranThrough hloaded) haddr).2
      hzero
  · have hloaded : ranThrough (execute (pure ()) load quadPage) = true := by decide +kernel
    have hstored : ranThrough
        (execute (pure ()) store (finalState (execute (pure ()) load quadPage))) = true := by
      decide +kernel
    have haddr : effectiveAddr (finalState (execute (pure ()) load quadPage)) store
        (floatWidth load) = effectiveAddr quadPage load (floatWidth load) := by
      decide +kernel
    have hplace : effectiveAddr quadPage load (floatWidth load) = 0x3000#32 := by decide +kernel
    have hdtb : PageAligned quadPage.control.dirbase.dtb := Dirbase.pageAligned_frame 0x1001#32
    have hnone : quadPage.mmu.tlb.lookup (VirtAddr.pageNumber 0x3000#32) = none := by
      decide +kernel
    have hcurrent : quadPage.KeepsCurrent (effectiveAddr quadPage load (floatWidth load)) := by
      intro _ t hlookup
      rw [hplace, hnone] at hlookup
      cases hlookup
    obtain ⟨paddr, h⟩ := hmemory _ _ (eq_ok_of_ranThrough hloaded) (eq_ok_of_ranThrough hstored)
      haddr hdtb hcurrent
    have hframe : (quadPage.translated 0x3000#32 .read).1.toOption = some 0x5000#32 := by
      decide +kernel
    have htranslated := h.translated
    rw [hplace] at htranslated
    rw [htranslated] at hframe
    obtain rfl : paddr = 0x5000#32 := Option.some.inj hframe
    have hentries : (quadPage.pathOf 0x3000#32).directoryAddr = 0x1000#32 ∧
        (quadPage.pathOf 0x3000#32).tableAddr = 0x200c#32 := by
      decide +kernel
    have hquad : floatWidth load = .quad := by decide +kernel
    have hapart : quadPage.ApartFromEntries (effectiveAddr quadPage load (floatWidth load))
        0x5000#32 (floatWidth load) := by
      intro _ a ha
      rw [hquad] at ha
      have hnear : (a - 0x5000#32).toNat < 16 := ha
      rw [hplace, hentries.1, hentries.2]
      constructor <;> bv_omega
    refine ⟨_, _, eq_ok_of_ranThrough hloaded, eq_ok_of_ranThrough hstored, ?_, ?_, ?_⟩
    · decide +kernel
    · exact (h.operand hapart 0x5004#32 (by decide +kernel)).trans (by decide +kernel)
    · exact (h.operand hapart 0x5008#32 (by decide +kernel)).trans (by decide +kernel)
  · apply hgroup
    · exact .inr hstore
    · constructor <;> decide +kernel

/-- The page of `quadPage`, from which a word was loaded when it was clean. Then
software has made it a dirty page at `0x6000`, and the mapping that is kept is
that of before. -/
def movedPage : Cpu OpenMemory :=
  let clean := { quadPage with board := Bus.storeWord .little quadPage.board 0x200c#32 0x5007#32 }
  let kept := finalState (execute (pure ()) ⟨0x24043002#32⟩ clean)
  { kept with board := Bus.storeWord .little kept.board 0x200c#32 0x6047#32 }

/-- A load of `f4` and the store behind it change more than their operand, which
is at `0x5000` in both cases. The first time they have the page looked up, and its
entry is marked. The second time the store goes to another frame than the load. -/
theorem load_then_store_changes_memory :
    let load : Instruction := ⟨0x24043002#32⟩
    let store : Instruction := ⟨0x2c043002#32⟩
    let loadedFrom (c : Cpu OpenMemory) := execute (pure ()) load c
    let storedFrom (c : Cpu OpenMemory) := execute (pure ()) store (finalState (loadedFrom c))
    let after (c : Cpu OpenMemory) := (finalState (storedFrom c)).board
    load.op = .fld ∧ store.op = .fst ∧ load.dest = store.dest ∧ floatWidth load = .word ∧
      floatWidth store = .word ∧
      (ranThrough (loadedFrom quadPage) = true ∧ ranThrough (storedFrom quadPage) = true ∧
        effectiveAddr quadPage load .word = 0x3000#32 ∧
        effectiveAddr (finalState (loadedFrom quadPage)) store .word = 0x3000#32 ∧
        (quadPage.translated 0x3000#32 .read).1.toOption = some 0x5000#32 ∧
        (quadPage.pathOf 0x3000#32).directoryAddr = 0x1000#32 ∧
        (quadPage.pathOf 0x3000#32).tableAddr = 0x200c#32 ∧
        Bus.readByte quadPage.board 0x200c#32 = 0x47#8 ∧
        Bus.readByte (after quadPage) 0x200c#32 = 0x67#8) ∧
      (ranThrough (loadedFrom movedPage) = true ∧ ranThrough (storedFrom movedPage) = true ∧
        effectiveAddr movedPage load .word = 0x3000#32 ∧
        effectiveAddr (finalState (loadedFrom movedPage)) store .word = 0x3000#32 ∧
        (movedPage.translated 0x3000#32 .read).1.toOption = some 0x5000#32 ∧
        (movedPage.pathOf 0x3000#32).directoryAddr = 0x1000#32 ∧
        (movedPage.pathOf 0x3000#32).tableAddr = 0x200c#32 ∧
        Bus.readByte movedPage.board 0x6000#32 = 0#8 ∧
        Bus.readByte (after movedPage) 0x6000#32 = 0x11#8) := by
  decide +kernel

end RoundTrips

end I860
