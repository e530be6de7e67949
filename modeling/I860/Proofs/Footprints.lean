import I860.Proofs.CachedFetch

/-!
# What a processor makes use of

How large the two buffers are decides when an entry is lost, and so when the
tables are walked again or a pair is read from memory again. That makes no
difference as long as everything that either buffer may hold is still what the
tables and memory say. `Sound` says this of a state, by the `Footprint` of the
run that has led there: the pairs that were fetched and the addresses that were
translated since the last invalidation. The footprint is an upper bound for the
contents of buffers of any size.

A run stays sound if each `Touch` of memory is `Orderly`: it leaves the pairs
and the entries in the footprint as they are, up to the marks of entries, and
the directory base changes only together with an invalidation. The translation
of an address, by whatever buffer, then gives what a walk gives and leaves
memory reading as the walk leaves it (`translate_answers`), and a fetch gives
what is read from memory (`fetch_answers`).
-/

namespace I860

/-! ## Boards that read the same -/

section SameBytes

variable {β : Type} [Bus β]

/-- Each byte of the second board is that of the first. -/
def SameBytes (b b' : β) : Prop := ∀ a, Bus.readByte b' a = Bus.readByte b a

namespace SameBytes

variable {b b' b'' : β}

theorem refl (b : β) : SameBytes b b := fun _ => rfl

theorem symm (h : SameBytes b b') : SameBytes b' b := fun a => (h a).symm

theorem trans (h : SameBytes b b') (h' : SameBytes b' b'') : SameBytes b b'' :=
  fun a => (h' a).trans (h a)

variable [PlainMemory β]

theorem load (h : SameBytes b b') (order : ByteOrder) (paddr : PhysAddr) (width : Width) :
    Bus.load order b' paddr width = Bus.load order b paddr width := by
  unfold Bus.load
  rw [PlainMemory.readBytes_eq, PlainMemory.readBytes_eq, funext h]

theorem store (h : SameBytes b b') (order : ByteOrder) (paddr : PhysAddr) (width : Width)
    (v : Quad) : SameBytes (Bus.store order b paddr width v) (Bus.store order b' paddr width v) := by
  have hlen : (order.split width v).length ≤ 2 ^ 32 := by
    rw [ByteOrder.length_split]
    cases width <;> decide
  intro a
  rw [Bus.store, Bus.store, PlainMemory.readByte_writeBytes _ _ _ _ hlen,
    PlainMemory.readByte_writeBytes _ _ _ _ hlen, h a]

theorem writeByte (h : SameBytes b b') (paddr : PhysAddr) (v : Byte) :
    SameBytes (Bus.writeByte b paddr v) (Bus.writeByte b' paddr v) := by
  intro a
  rw [PlainMemory.readByte_writeByte, PlainMemory.readByte_writeByte, h a]

theorem storeSelected (h : SameBytes b b') (order : ByteOrder) (paddr : PhysAddr) (v : Double)
    (mask : Byte) :
    SameBytes (storeSelected order b paddr v mask) (storeSelected order b' paddr v mask) := by
  unfold I860.storeSelected
  generalize List.range 8 = places
  induction places generalizing b b' with
  | nil => exact h
  | cons i places ih =>
      apply ih
      dsimp only
      split
      · exact h.writeByte _ _
      · exact h

theorem path (h : SameBytes b b') (order : ByteOrder) (dtb : Word) (vaddr : VirtAddr) :
    PagePath.of order b' dtb vaddr = PagePath.of order b dtb vaddr := by
  have hword : ∀ a, Bus.loadWord order b' a = Bus.loadWord order b a :=
    fun a => congrArg (BitVec.setWidth 32) (h.load order a .word)
  simp only [PagePath.of, hword]

theorem walk (h : SameBytes b b') (order : ByteOrder) (dtb : Word) (vaddr : VirtAddr)
    (access : AccessKind) (who : Privilege) :
    (walk order b' dtb vaddr access who).1 = (walk order b dtb vaddr access who).1 ∧
      SameBytes (walk order b dtb vaddr access who).2 (walk order b' dtb vaddr access who).2 := by
  rw [walk_eq, walk_eq, h.path]
  split
  · exact ⟨rfl, (h.store order _ .word _).store order _ .word _⟩
  · exact ⟨rfl, h⟩

end SameBytes

end SameBytes

/-! ## Footprints -/

/-- What a processor has made use of since its buffers were emptied: the pairs
that it has fetched, since a word is fetched with the other one of its pair, and
the addresses that it has had translated. -/
structure Footprint where
  pairs : List VirtAddr
  addrs : List VirtAddr

def Footprint.empty : Footprint := ⟨[], []⟩

/-- One time that a processor turns to memory, or changes how it does so. -/
structure Touch (β : Type) where
  before : Cpu β
  after : Cpu β
  /-- The pair that was fetched. -/
  pair? : Option VirtAddr
  /-- The address that was translated by the tables or what is kept of them. -/
  addr? : Option VirtAddr
  /-- Both buffers were emptied. -/
  invalidates : Bool

def Footprint.after {β : Type} (f : Footprint) (t : Touch β) : Footprint :=
  if t.invalidates then .empty else ⟨t.pair?.toList ++ f.pairs, t.addr?.toList ++ f.addrs⟩

def Footprint.afterAll {β : Type} (f : Footprint) (touches : List (Touch β)) : Footprint :=
  touches.foldl Footprint.after f

variable {β : Type} [Bus β]

namespace Touch

def ofFetch (pc : VirtAddr) (c : Cpu β) : Touch β :=
  let done := ranThrough (fetch pc c)
  let tag := InstructionCache.pairAddr pc
  { before := c
    after := finalState (fetch pc c)
    pair? := if done then some tag else none
    addr? := if done && c.control.dirbase.ate then some tag else none
    invalidates := false }

/-- The checks before an access to data, with the translation of its address. -/
def ofAccess (vaddr : VirtAddr) (width : Width) (access : AccessKind) (c : Cpu β) : Touch β :=
  let done := ranThrough (checkData vaddr width access c)
  { before := c
    after := finalState (checkData vaddr width access c)
    pair? := none
    addr? := if done && c.control.dirbase.ate then some vaddr else none
    invalidates := false }

omit [Bus β] in
def ofStore (before after : Cpu β) : Touch β := ⟨before, after, none, none, false⟩

omit [Bus β] in
def ofControl (reg : ControlReg) (v : Word) (c : Cpu β) : Touch β :=
  ⟨c, c.writeControl reg v, none, none, reg == .dirbase && (Dirbase.ofBits v).iti⟩

/-- The touch was made in supervisor mode and leaves the byte order alone. If it
does not empty the buffers, it also leaves alone whether and by which tables
addresses are translated, the pairs that were fetched, and the entries by which
addresses were translated, up to their marks. A walk always keeps to the last,
but where tables overlap code it may spoil a pair. -/
structure Orderly (f : Footprint) (t : Touch β) : Prop where
  supervisor : t.before.control.psr.u = false
  byteOrder : t.after.control.epsr.be = t.before.control.epsr.be
  directory : t.invalidates = false →
    t.after.control.dirbase.ate = t.before.control.dirbase.ate ∧
      t.after.control.dirbase.dtb = t.before.control.dirbase.dtb
  pairs : t.invalidates = false → ∀ tag ∈ f.pairs,
    pairAt t.after.board (t.before.place tag) = pairAt t.before.board (t.before.place tag)
  tables : t.invalidates = false → t.before.control.dirbase.ate = true → ∀ a ∈ f.addrs,
    (t.before.pathOf a).Marked (t.after.pathOf a)

end Touch

def OrderlyAll : Footprint → List (Touch β) → Prop
  | _, [] => True
  | f, t :: rest => t.Orderly f ∧ OrderlyAll (f.after t) rest

instance (e e' : PageEntry) : Decidable (e.MarkedTo e') :=
  inferInstanceAs (Decidable (∃ a d, e' = e.mark a d))

instance (p p' : PagePath) : Decidable (p.Marked p') :=
  decidable_of_iff (p'.directoryAddr = p.directoryAddr ∧ p.directory.MarkedTo p'.directory ∧
      (p.directory.present = true → p'.tableAddr = p.tableAddr ∧ p.table.MarkedTo p'.table))
    ⟨fun ⟨haddr, hdirectory, htable⟩ => ⟨haddr, hdirectory, htable⟩,
      fun h => ⟨h.directoryAddr, h.directory, h.table⟩⟩

-- Only what is in the footprint is looked at, and not every address there is.
instance (t : Touch β) (f : Footprint) : Decidable (t.Orderly f) :=
  have : Decidable (∀ tag ∈ f.pairs, pairAt t.after.board (t.before.place tag) =
    pairAt t.before.board (t.before.place tag)) := List.decidableBAll _ _
  have : Decidable (∀ a ∈ f.addrs, (t.before.pathOf a).Marked (t.after.pathOf a)) :=
    List.decidableBAll _ _
  decidable_of_iff (t.before.control.psr.u = false ∧
      t.after.control.epsr.be = t.before.control.epsr.be ∧
      (t.invalidates = false →
        t.after.control.dirbase.ate = t.before.control.dirbase.ate ∧
          t.after.control.dirbase.dtb = t.before.control.dirbase.dtb) ∧
      (t.invalidates = false → ∀ tag ∈ f.pairs,
        pairAt t.after.board (t.before.place tag) =
          pairAt t.before.board (t.before.place tag)) ∧
      (t.invalidates = false → t.before.control.dirbase.ate = true → ∀ a ∈ f.addrs,
        (t.before.pathOf a).Marked (t.after.pathOf a)))
    ⟨fun ⟨hsupervisor, horder, hdirectory, hpairs, htables⟩ =>
        ⟨hsupervisor, horder, hdirectory, hpairs, htables⟩,
      fun h => ⟨h.supervisor, h.byteOrder, h.directory, h.pairs, h.tables⟩⟩

instance : (f : Footprint) → (touches : List (Touch β)) → Decidable (OrderlyAll f touches)
  | _, [] => inferInstanceAs (Decidable True)
  | f, t :: rest =>
      have := instDecidableOrderlyAll (f.after t) rest
      inferInstanceAs (Decidable (t.Orderly f ∧ OrderlyAll (f.after t) rest))

theorem OrderlyAll.append {f : Footprint} {first rest : List (Touch β)}
    (h : OrderlyAll f (first ++ rest)) :
    OrderlyAll f first ∧ OrderlyAll (f.afterAll first) rest := by
  induction first generalizing f with
  | nil => exact ⟨trivial, h⟩
  | cons t first ih =>
      obtain ⟨hfirst, hrest⟩ := ih h.2
      exact ⟨⟨h.1, hfirst⟩, hrest⟩

/-! ## Sound states -/

/-- What the buffers hold is in the footprint and is what the tables and memory
say. -/
structure Sound (f : Footprint) (c : Cpu β) : Prop where
  directory : PageAligned c.control.dirbase.dtb
  used : c.control.dirbase.ate = true → ∀ a ∈ f.addrs,
    (c.pathOf a).mapping.Agrees (c.pathOf a)
  kept : c.control.dirbase.ate = true → ∀ (vaddr : VirtAddr) t,
    c.mmu.tlb.Keeps vaddr.pageNumber t →
    ∃ a ∈ f.addrs, a.pageNumber = vaddr.pageNumber ∧ t.Agrees (c.pathOf a)
  lines : ∀ tag pair, c.icache.Keeps tag pair →
    tag ∈ f.pairs ∧ pairAt c.board (c.place tag) = pair
  pairs : c.control.dirbase.ate = true → ∀ tag ∈ f.pairs, tag ∈ f.addrs

namespace Sound

variable {f : Footprint} {c d : Cpu β}

theorem pathOf_congr (c : Cpu β) {a a' : VirtAddr} (h : a.pageNumber = a'.pageNumber) :
    c.pathOf a = c.pathOf a' :=
  PagePath.of_congr _ _ _ _ h

theorem of_empty {c : Cpu β} (hdirectory : PageAligned c.control.dirbase.dtb)
    (htlb : ∀ page t, ¬c.mmu.tlb.Keeps page t) (hlines : ∀ tag pair, ¬c.icache.Keeps tag pair) :
    Sound .empty c where
  directory := hdirectory
  used _ _ ha := absurd ha List.not_mem_nil
  kept _ _ t hkeeps := absurd hkeeps (htlb _ t)
  lines tag pair hkeeps := absurd hkeeps (hlines tag pair)
  pairs _ _ htag := absurd htag List.not_mem_nil

theorem pageAgrees (h : Sound f c) (hate : c.control.dirbase.ate = true) (vaddr : VirtAddr) :
    PageAgrees c.order c.control.dirbase.dtb c.board c.mmu.tlb vaddr := by
  intro t hkeeps
  obtain ⟨a, -, hpage, hagrees⟩ := h.kept hate vaddr t hkeeps
  rwa [pathOf_congr c hpage] at hagrees

/-- What was left alone, and what is new and agrees, is sound. -/
theorem next (h : Sound f c) (pairs addrs : List VirtAddr)
    (hate : d.control.dirbase.ate = c.control.dirbase.ate)
    (hdtb : d.control.dirbase.dtb = c.control.dirbase.dtb)
    (hpairs : ∀ tag ∈ f.pairs,
      pairAt d.board (c.place tag) = pairAt c.board (c.place tag))
    (htables : c.control.dirbase.ate = true → ∀ a ∈ f.addrs,
      (c.pathOf a).Marked (d.pathOf a))
    (hused : c.control.dirbase.ate = true → ∀ a ∈ addrs,
      (d.pathOf a).mapping.Agrees (d.pathOf a))
    (hkept : c.control.dirbase.ate = true → ∀ (vaddr : VirtAddr) t,
      d.mmu.tlb.Keeps vaddr.pageNumber t → c.mmu.tlb.Keeps vaddr.pageNumber t ∨
        ∃ a ∈ addrs, a.pageNumber = vaddr.pageNumber ∧ t.Agrees (d.pathOf a))
    (hlines : ∀ tag pair, d.icache.Keeps tag pair → c.icache.Keeps tag pair ∨
      tag ∈ pairs ∧ pairAt d.board (d.place tag) = pair)
    (hnew : c.control.dirbase.ate = true → ∀ tag ∈ pairs, tag ∈ addrs ++ f.addrs) :
    Sound ⟨pairs ++ f.pairs, addrs ++ f.addrs⟩ d := by
  have hplace : ∀ tag ∈ f.pairs, d.place tag = c.place tag := by
    intro tag htag
    unfold Cpu.place
    rw [hate]
    split
    · next hon =>
        have hused := h.used hon tag (h.pairs hon tag htag)
        have hmoved := hused.of_marked (htables hon tag (h.pairs hon tag htag))
        rw [hmoved.address_eq]
    · rfl
  refine ⟨hdtb ▸ h.directory, fun hon a ha => ?_, fun hon vaddr t hkeeps => ?_,
    fun tag pair hkeeps => ?_, fun hon tag htag => ?_⟩
  · rw [hate] at hon
    obtain ha | ha := List.mem_append.1 ha
    · exact hused hon a ha
    · exact ((h.used hon a ha).of_marked (htables hon a ha)).self
  · rw [hate] at hon
    obtain hold | ⟨a, ha, hpage, hagrees⟩ := hkept hon vaddr t hkeeps
    · obtain ⟨a, ha, hpage, hagrees⟩ := h.kept hon vaddr t hold
      exact ⟨a, List.mem_append_right _ ha, hpage, hagrees.of_marked (htables hon a ha)⟩
    · exact ⟨a, List.mem_append_left _ ha, hpage, hagrees⟩
  · obtain hold | ⟨htag, hpair⟩ := hlines tag pair hkeeps
    · obtain ⟨htag, hpair⟩ := h.lines tag pair hold
      refine ⟨List.mem_append_right _ htag, ?_⟩
      rw [hplace tag htag, hpairs tag htag, hpair]
    · exact ⟨List.mem_append_left _ htag, hpair⟩
  · rw [hate] at hon
    obtain htag | htag := List.mem_append.1 htag
    · exact hnew hon tag htag
    · exact List.mem_append_right _ (h.pairs hon tag htag)

/-- Nothing new has been looked up. -/
theorem quiet (h : Sound f c) (hate : d.control.dirbase.ate = c.control.dirbase.ate)
    (hdtb : d.control.dirbase.dtb = c.control.dirbase.dtb) (htlb : d.mmu.tlb = c.mmu.tlb)
    (hlines : ∀ tag pair, d.icache.Keeps tag pair → c.icache.Keeps tag pair)
    (hpairs : ∀ tag ∈ f.pairs, pairAt d.board (c.place tag) = pairAt c.board (c.place tag))
    (htables : c.control.dirbase.ate = true → ∀ a ∈ f.addrs,
      (c.pathOf a).Marked (d.pathOf a)) : Sound f d :=
  h.next [] [] hate hdtb hpairs htables
    (fun _ _ ha => absurd ha List.not_mem_nil) (fun _ _ _ hkeeps => .inl (htlb ▸ hkeeps))
    (fun tag pair hkeeps => .inl (hlines tag pair hkeeps))
    (fun _ _ htag => absurd htag List.not_mem_nil)

theorem idle (h : Sound f c) (horder : d.order = c.order)
    (hate : d.control.dirbase.ate = c.control.dirbase.ate)
    (hdtb : d.control.dirbase.dtb = c.control.dirbase.dtb) (htlb : d.mmu.tlb = c.mmu.tlb)
    (hlines : ∀ tag pair, d.icache.Keeps tag pair → c.icache.Keeps tag pair)
    (hboard : d.board = c.board) : Sound f d := by
  refine h.quiet hate hdtb htlb hlines (fun _ _ => by rw [hboard]) fun _ a _ => ?_
  have hpath : d.pathOf a = c.pathOf a := by
    rw [Cpu.pathOf, horder, hdtb, hboard]
    rfl
  rw [hpath]
  exact TablesKept.refl _ a

end Sound

/-! ## After a touch -/

/-- What the lookaside buffer and the tables make of an address. -/
def Cpu.translated (c : Cpu β) (vaddr : VirtAddr) (access : AccessKind) :
    Except TrapKind PhysAddr × Mmu × β :=
  c.mmu.translate c.order c.board c.control.dirbase vaddr access c.privilege

def Cpu.translating (c : Cpu β) (vaddr : VirtAddr) (access : AccessKind) : Cpu β :=
  { c with
    mmu := (c.translated vaddr access).2.1
    board := (c.translated vaddr access).2.2 }

theorem translate_eq (vaddr : VirtAddr) (access : AccessKind) (c : Cpu β) :
    translate vaddr access c =
      match (c.translated vaddr access).1 with
      | .ok paddr => .ok paddr (c.translating vaddr access)
      | .error kind => raise kind (c.translating vaddr access) := by
  rw [translate_apply, Cpu.translating, Cpu.translated]
  generalize c.mmu.translate c.order c.board c.control.dirbase vaddr access c.privilege = r
  obtain ⟨result, mmu, board⟩ := r
  cases result <;> rfl

/-- An operand that passes all checks has its address translated, and that is all
that the checks do. -/
theorem translated_of_checkData {c d : Cpu β} {vaddr : VirtAddr} {width : Width}
    {access : AccessKind} {paddr : PhysAddr} (h : checkData vaddr width access c = .ok paddr d) :
    (c.translated vaddr access).1 = .ok paddr ∧ d = c.translating vaddr access := by
  rw [checkData_eq] at h
  split at h
  · cases h
  · rw [translate_eq] at h
    split at h
    · next htranslated =>
        cases h
        exact ⟨htranslated, rfl⟩
    · cases h

theorem fetch_of_miss_eq {c : Cpu β} {pc : VirtAddr} (h : c.icache.peek pc = none) :
    fetch pc c =
      let tag := InstructionCache.pairAddr pc
      let d := { c.translating tag .fetch with icache := c.missed.icache }
      match (c.translated tag .fetch).1 with
      | .ok paddr =>
          .ok (wordOfPair pc (pairAt d.board paddr))
            { d with icache := d.icache.fill pc (pairAt d.board paddr) }
      | .error kind => raise kind d := by
  rw [fetch_of_miss h]
  unfold Cpu.translating Cpu.translated
  dsimp only
  generalize c.mmu.translate c.order c.board c.control.dirbase (InstructionCache.pairAddr pc)
    .fetch c.privilege = r
  obtain ⟨result, mmu, board⟩ := r
  cases result <;> rfl

omit [Bus β] in
/-- Without the command to invalidate, a write of the directory base only ever
empties the instruction cache. -/
theorem Cpu.writeDirbase_of_keeping (c : Cpu β) {next : Dirbase} (hiti : next.iti = false) :
    (c.writeDirbase next).mmu = c.mmu ∧
      (∀ tag pair, (c.writeDirbase next).icache.Keeps tag pair → c.icache.Keeps tag pair) ∧
      (c.writeDirbase next).board = c.board := by
  rw [writeDirbase, if_neg (by rw [hiti]; exact Bool.false_ne_true)]
  split
  · refine ⟨rfl, fun tag pair hkeeps => ?_, rfl⟩
    exact absurd hkeeps (InstructionCache.not_keeps_invalidate _ tag pair)
  · exact ⟨rfl, fun _ _ hkeeps => hkeeps, rfl⟩

section Touches

variable [PlainMemory β] {f : Footprint} {c : Cpu β}

namespace Sound

/-- Where an address was translated to, the tables place it then. -/
theorem of_translated (h : Sound f c) {vaddr : VirtAddr} {access : AccessKind} {paddr : PhysAddr}
    (hok : (c.translated vaddr access).1 = .ok paddr) :
    (c.control.dirbase.ate = true → ((c.translating vaddr access).pathOf vaddr).mapping.Agrees
        ((c.translating vaddr access).pathOf vaddr)) ∧
      (c.translating vaddr access).place vaddr = paddr := by
  cases hate : c.control.dirbase.ate with
  | false =>
      have hoff : (c.translating vaddr access).control.dirbase.ate = false := hate
      have hsame : (c.translated vaddr access).1 = .ok vaddr := by
        simp [Cpu.translated, Mmu.translate, hate]
      rw [hsame] at hok
      rw [Cpu.place, hoff]
      exact ⟨(by cases ·), Except.ok.inj hok⟩
  | true =>
      have hon : (c.translating vaddr access).control.dirbase.ate = true := hate
      have hagrees := (h.pageAgrees hate vaddr).translate h.directory vaddr access c.privilege
      have htranslated : c.mmu.translate c.order c.board c.control.dirbase vaddr access
          c.privilege =
          (.ok paddr, (c.translated vaddr access).2.1, (c.translated vaddr access).2.2) := by
        rw [← hok]
        rfl
      obtain ⟨t, hlookup, -, -, haddr⟩ := Tlb.answers_of_translate hate htranslated
      have ht := hagrees t (Tlb.keeps_of_lookup hlookup)
      rw [Cpu.place, hon, if_pos rfl, ← haddr]
      exact ⟨fun _ => ht.self, (ht.address_eq vaddr).symm⟩

/-- Translating an address leaves a sound state, unless the walk has spoilt
something. -/
theorem translating (h : Sound f c) (vaddr : VirtAddr) (access : AccessKind)
    (hpairs : ∀ tag ∈ f.pairs,
      pairAt (c.translating vaddr access).board (c.place tag) = pairAt c.board (c.place tag))
    (htables : c.control.dirbase.ate = true → ∀ a ∈ f.addrs,
      (c.pathOf a).Marked ((c.translating vaddr access).pathOf a)) :
    Sound ⟨f.pairs, (if (c.translated vaddr access).1.isOk && c.control.dirbase.ate then
      some vaddr else none).toList ++ f.addrs⟩ (c.translating vaddr access) := by
  have hpath : c.control.dirbase.ate = true → (c.translated vaddr access).1.isOk = true →
      ((c.translating vaddr access).pathOf vaddr).mapping.Agrees
        ((c.translating vaddr access).pathOf vaddr) := by
    intro hate hok
    cases hresult : (c.translated vaddr access).1 with
    | ok paddr => exact (h.of_translated hresult).1 hate
    | error kind =>
        rw [hresult] at hok
        cases hok
  refine h.next [] _ rfl rfl hpairs htables (fun hate a ha => ?_)
    (fun hate vaddr' t hkeeps => ?_) (fun _ _ hkeeps => .inl hkeeps)
    fun _ _ htag => absurd htag List.not_mem_nil
  · split at ha
    · next hok =>
        rw [Bool.and_eq_true] at hok
        rw [List.mem_singleton.1 ha]
        exact hpath hate hok.1
    · cases ha
  · obtain hold | ⟨hpage, ⟨paddr, hok⟩, -⟩ := Mmu.kept_or_translated hkeeps
    · exact .inl hold
    · have hagrees := (h.pageAgrees hate vaddr').translate h.directory vaddr access c.privilege
      have hresult : (c.translated vaddr access).1.isOk = true := by
        rw [Cpu.translated, hok]
        rfl
      rw [hresult, hate]
      refine .inr ⟨vaddr, List.mem_singleton_self vaddr, hpage.symm, ?_⟩
      rw [pathOf_congr _ hpage.symm]
      exact hagrees t hkeeps

omit [PlainMemory β] in
theorem raise (h : Sound f c) {α : Type} (kind : TrapKind) :
    Sound f (finalState ((raise kind : Exec β α) c)) :=
  h.idle rfl rfl rfl rfl (fun _ _ hkeeps => hkeeps) rfl

theorem access (h : Sound f c) {vaddr : VirtAddr} {width : Width} {access : AccessKind}
    (ho : (Touch.ofAccess vaddr width access c).Orderly f) :
    Sound (f.after (.ofAccess vaddr width access c))
      (finalState (checkData vaddr width access c)) := by
  have hpairs := ho.pairs rfl
  have htables := ho.tables rfl
  unfold Touch.ofAccess at hpairs htables ⊢
  dsimp only at hpairs htables
  rw [checkData_eq] at hpairs htables ⊢
  split at hpairs
  · next hrefused =>
      rw [if_pos hrefused]
      exact h.raise .dataAccess
  · next hpassed =>
      rw [if_neg hpassed] at htables ⊢
      rw [translate_eq] at hpairs htables ⊢
      cases hresult : (c.translated vaddr access).1 with
      | ok paddr =>
          rw [hresult] at hpairs htables
          have hsound := h.translating vaddr access hpairs htables
          rw [hresult] at hsound
          exact hsound
      | error kind =>
          rw [hresult] at hpairs htables
          have hsound := h.translating vaddr access hpairs htables
          rw [hresult] at hsound
          exact hsound.raise kind

theorem fetch (h : Sound f c) {pc : VirtAddr} (ho : (Touch.ofFetch pc c).Orderly f) :
    Sound (f.after (.ofFetch pc c)) (finalState (fetch pc c)) := by
  have hpairs := ho.pairs rfl
  have htables := ho.tables rfl
  unfold Touch.ofFetch at hpairs htables ⊢
  dsimp only at hpairs htables
  cases hpeek : c.icache.peek pc with
  | some pair =>
      rw [InstructionCache.peek_eq_some_iff] at hpeek
      have hfetched := (h.lines _ pair hpeek).1
      rw [← InstructionCache.peek_eq_some_iff] at hpeek
      rw [fetch_of_hit hpeek]
      refine h.next [InstructionCache.pairAddr pc] _ rfl rfl (fun _ _ => rfl)
        (fun _ a _ => TablesKept.refl _ a) (fun hate a ha => ?_) (fun _ _ _ => .inl)
        (fun _ _ => .inl) fun hate tag htag => ?_
      · rw [show ranThrough _ = true from rfl, hate] at ha
        rw [List.mem_singleton.1 ha]
        exact h.used hate _ (h.pairs hate _ hfetched)
      · rw [List.mem_singleton.1 htag]
        exact List.mem_append_right _ (h.pairs hate _ hfetched)
  | none =>
      rw [fetch_of_miss_eq hpeek] at hpairs htables ⊢
      dsimp only at hpairs htables ⊢
      have hmiss := fun hpairs htables =>
        (h.translating (InstructionCache.pairAddr pc) .fetch hpairs htables).idle
          (d := { c.translating (InstructionCache.pairAddr pc) .fetch with
            icache := c.missed.icache }) rfl rfl rfl rfl (fun _ _ hkeeps => hkeeps) rfl
      cases hresult : (c.translated (InstructionCache.pairAddr pc) .fetch).1 with
      | ok paddr =>
          rw [hresult] at hpairs htables hmiss
          refine (hmiss hpairs htables).next [InstructionCache.pairAddr pc] [] rfl rfl
            (fun _ _ => rfl) (fun _ a _ => TablesKept.refl _ a)
            (fun _ _ ha => absurd ha List.not_mem_nil) (fun _ _ _ => .inl)
            (fun tag pair hkeeps => ?_) fun hate tag htag => ?_
          · obtain ⟨rfl, rfl⟩ | hold := InstructionCache.keeps_of_fill hkeeps
            · have hplace := (h.of_translated hresult).2
              exact .inr ⟨List.mem_singleton_self _, congrArg (pairAt _) hplace⟩
            · exact .inl hold
          · have hon : c.control.dirbase.ate = true := hate
            rw [hon, List.mem_singleton.1 htag]
            exact List.mem_cons_self
      | error kind =>
          rw [hresult] at hpairs htables hmiss
          exact (hmiss hpairs htables).raise kind

omit [PlainMemory β] in
theorem store (h : Sound f c) {d : Cpu β} (ho : (Touch.ofStore c d).Orderly f)
    (hdirbase : d.control.dirbase = c.control.dirbase) (hmmu : d.mmu = c.mmu)
    (hicache : d.icache = c.icache) : Sound f d :=
  h.quiet (by rw [hdirbase]) (by rw [hdirbase]) (by rw [hmmu]) (fun _ _ hkeeps => hicache ▸ hkeeps)
    (ho.pairs rfl) (ho.tables rfl)

omit [PlainMemory β] in
theorem writeControl (h : Sound f c) {reg : ControlReg} {v : Word}
    (ho : (Touch.ofControl reg v c).Orderly f) :
    Sound (f.after (.ofControl reg v c)) (c.writeControl reg v) := by
  have horder : (c.writeControl reg v).order = c.order := by
    have hbe := ho.byteOrder
    cases reg with
    | epsr =>
        have hsame : (c.control.epsr.write v c.control.psr.u).be = c.control.epsr.be := hbe
        simp [Cpu.writeControl, Cpu.writeEpsr, Cpu.setEpsr, hsame]
    | dirbase =>
        dsimp only [Cpu.writeControl, Cpu.writeDirbase]
        split
        · rfl
        · split <;> rfl
    | _ => rfl
  cases hinvalidates : (Touch.ofControl reg v c).invalidates with
  | false =>
      obtain ⟨hate, hdtb⟩ := ho.directory hinvalidates
      have hafter : f.after (.ofControl reg v c) = f := by
        rw [Footprint.after, hinvalidates]
        rfl
      rw [hafter]
      cases reg with
      | dirbase =>
          obtain ⟨hmmu, hlines, hboard⟩ := c.writeDirbase_of_keeping hinvalidates
          exact h.idle horder hate hdtb (congrArg (·.tlb) hmmu) hlines hboard
      | _ => exact h.idle horder hate hdtb rfl (fun _ _ hkeeps => hkeeps) rfl
  | true =>
      have hafter : f.after (.ofControl reg v c) = .empty := by
        rw [Footprint.after, hinvalidates]
        rfl
      rw [hafter]
      cases reg with
      | dirbase =>
          have hiti : (Dirbase.ofBits v).iti = true := hinvalidates
          have hwritten : c.writeControl .dirbase v =
              { c with
                mmu := c.mmu.flush
                icache := c.icache.invalidate
                control :=
                  { c.control with dirbase := { Dirbase.ofBits v with iti := false } } } := by
            rw [Cpu.writeControl, Cpu.writeDirbase, if_pos hiti]
          rw [hwritten]
          exact .of_empty (Dirbase.pageAligned_frame v) (fun _ _ => Tlb.not_keeps_flush _ _ _)
            (fun _ _ => InstructionCache.not_keeps_invalidate _ _ _)
      | _ => cases hinvalidates

end Sound

end Touches

end I860
