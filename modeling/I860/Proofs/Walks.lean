import I860.Proofs.Lookaside

/-!
# What a walk leaves behind

A walk reads two entries and asks each of them before it writes anything, so a
walk that is refused has not touched the board. One that is granted writes both
entries back as it has read them, with their accessed bits, and that is all
that is ever different afterwards (`walk_onlyMarks`). For this it makes no
difference how the two words lie to each other.

For the second question it does: whether a walk that is repeated finds what the
first one found. The tables of a directory base are whole pages, so its entries
are aligned words and the two of an address are one word or have nothing in
common. Then the first walk has given both their marks, and everything that the
second one asks for is as it was (`PagePath.of_record`).
-/

namespace I860

namespace PagePath

variable {β : Type} [Bus β]

/-- From one board to the other, accessed bits of the two entries have been set
and nothing else has happened. -/
def OnlyMarks (p : PagePath) (order : ByteOrder) (board board' : β) : Prop :=
  ∀ a, Bus.readByte board' a = Bus.readByte board a ∨
    Bus.readByte board' a = Bus.readByte board a ||| 0x20#8 ∧
      (a = order.accessedByte p.directoryAddr ∨ a = order.accessedByte p.tableAddr)

namespace OnlyMarks

variable {p : PagePath} {order : ByteOrder} {board board' : β}

theorem refl (p : PagePath) (order : ByteOrder) (board : β) : p.OnlyMarks order board board :=
  fun _ => .inl rfl

theorem bit_kept (h : p.OnlyMarks order board board') {a : PhysAddr} {j : Nat}
    (hset : (Bus.readByte board a).getLsbD j = true) :
    (Bus.readByte board' a).getLsbD j = true := by
  rcases h a with heq | ⟨heq, -⟩
  · rw [heq, hset]
  · rw [heq, BitVec.getLsbD_or, hset, Bool.true_or]

theorem bit_eq (h : p.OnlyMarks order board board') (a : PhysAddr) {j : Nat} (hj : j ≠ 5) :
    (Bus.readByte board' a).getLsbD j = (Bus.readByte board a).getLsbD j := by
  have hbit : (0x20#8).getLsbD j = false := by
    rcases Nat.lt_or_ge j 8 with hlt | hge
    · have hlow : ∀ j < 8, j ≠ 5 → (0x20#8).getLsbD j = false := by decide
      exact hlow j hlt hj
    · exact BitVec.getLsbD_of_ge _ _ hge
  rcases h a with heq | ⟨heq, -⟩
  · rw [heq]
  · rw [heq, BitVec.getLsbD_or, hbit, Bool.or_false]

/-- The dirty bit of a word is in the byte that ends up least significant, beside
the accessed bit. -/
theorem dirty_eq [PlainMemory β] (h : p.OnlyMarks order board board') (a : PhysAddr) :
    PageEntry.dirty ⟨Bus.loadWord order board' a⟩ =
      PageEntry.dirty ⟨Bus.loadWord order board a⟩ := by
  have hbyte : ∀ b : β, PageEntry.dirty ⟨Bus.loadWord order b a⟩ =
      (Bus.readByte b (a + BitVec.ofNat 32 (order.place 4 0))).getLsbD 6 := by
    intro b
    rw [← byteOf_loadWord order b a (by omega : 0 < 4), getLsbD_byteOf]
    simp [PageEntry.dirty]
  rw [hbyte, hbyte]
  exact h.bit_eq _ (by omega)

end OnlyMarks

end PagePath

section Walks

variable {β : Type} [Bus β] [PlainMemory β]

theorem walk_onlyMarks (order : ByteOrder) (board : β) (dtb : Word) (vaddr : VirtAddr)
    (access : AccessKind) (who : Privilege) :
    (PagePath.of order board dtb vaddr).OnlyMarks order board
      (walk order board dtb vaddr access who).2 := by
  rw [walk_eq]
  split
  · intro a
    exact PagePath.readByte_record rfl rfl a
  · exact .refl _ _ _

omit [PlainMemory β] in
theorem walk_of_refused {order : ByteOrder} {board : β} {dtb : Word} {vaddr : VirtAddr}
    {access : AccessKind} {who : Privilege}
    (h : (PagePath.of order board dtb vaddr).grants access who = false) :
    walk order board dtb vaddr access who = (.error access.fault, board) := by
  rw [walk_eq, if_neg (by rw [h]; exact Bool.false_ne_true)]

/-- An access that is on record is not recorded again. -/
theorem readByte_record_again {order : ByteOrder} {board : β} {dtb : Word} (hdtb : PageAligned dtb)
    {vaddr : VirtAddr} {access : AccessKind} {who : Privilege}
    (hgrants : (PagePath.of order board dtb vaddr).grants access who = true) (a : PhysAddr) :
    let marked := (PagePath.of order board dtb vaddr).record order board
    Bus.readByte ((PagePath.of order marked dtb vaddr).record order marked) a =
      Bus.readByte marked a :=
  (PagePath.mapping_agrees hdtb hgrants).readByte_record a

/-- A walk on the board that a walk has left gives what the first one gave, and
leaves the board reading the same. -/
theorem walk_again {order : ByteOrder} {board : β} {dtb : Word} (hdtb : PageAligned dtb)
    (vaddr : VirtAddr) (access : AccessKind) (who : Privilege) :
    let walked := walk order board dtb vaddr access who
    (walk order walked.2 dtb vaddr access who).1 = walked.1 ∧
      ∀ a, Bus.readByte (walk order walked.2 dtb vaddr access who).2 a =
        Bus.readByte walked.2 a := by
  intro walked
  cases hgrants : (PagePath.of order board dtb vaddr).grants access who with
  | false =>
      have hwalked : walked = (.error access.fault, board) := walk_of_refused hgrants
      rw [hwalked, walk_of_refused hgrants]
      exact ⟨rfl, fun _ => rfl⟩
  | true =>
      have hwalked : walked.2 = (PagePath.of order board dtb vaddr).record order board := by
        show (walk order board dtb vaddr access who).2 = _
        rw [walk_eq, if_pos hgrants]
      have hmarked := PagePath.of_record order hdtb board vaddr
      have hstill : (PagePath.of order walked.2 dtb vaddr).grants access who = true := by
        rw [hwalked, hmarked, ← hgrants]
        simp [PagePath.grants]
      constructor
      · show _ = (walk order board dtb vaddr access who).1
        rw [walk_eq, if_pos hstill, walk_eq, if_pos hgrants, hwalked, hmarked]
        simp [PagePath.mapping]
      · intro a
        rw [walk_eq, if_pos hstill, hwalked]
        exact readByte_record_again hdtb hgrants a

omit [PlainMemory β] in
/-- A translation that fails keeps nothing, and writes only if it was granted to
write to a clean page. -/
theorem Mmu.translate_error {m m' : Mmu} {order : ByteOrder} {board board' : β}
    {dirbase : Dirbase} {vaddr : VirtAddr} {access : AccessKind} {who : Privilege} {kind : TrapKind}
    (h : m.translate order board dirbase vaddr access who = (.error kind, m', board')) :
    m'.tlb = m.tlb ∧
      (board' = board ∨
        access.isWrite = true ∧
          (PagePath.of order board dirbase.dtb vaddr).grants access who = true ∧
          (PagePath.of order board dirbase.dtb vaddr).table.dirty = false ∧
          board' = (walk order board dirbase.dtb vaddr access who).2) := by
  obtain ⟨_, heq, -⟩ | ⟨_, heq⟩ | heq := m.translate_cases order board dirbase vaddr access who
  · rw [heq] at h
    cases h
    exact ⟨rfl, .inl rfl⟩
  · rw [heq] at h
    cases h
  · rw [heq, translateByWalk] at h
    dsimp only at h
    cases hgrants : (PagePath.of order board dirbase.dtb vaddr).grants access who with
    | false =>
        rw [walk_of_refused hgrants] at h
        cases h
        exact ⟨rfl, .inl rfl⟩
    | true =>
        split at h
        · next hwalk =>
            cases h
            refine ⟨rfl, .inr ?_⟩
            rw [hwalk]
            rw [walk_eq, if_pos hgrants] at hwalk
            cases hclean :
                access.isWrite && !(PagePath.of order board dirbase.dtb vaddr).table.dirty with
            | true => simpa using hclean
            | false => simp [hclean] at hwalk
        · cases h

/-- A walk marks the two entries that it has used, if both are there and grant
the access, and does nothing else to memory, with whatever directory it starts.
Repeated, it gives the same and changes nothing, if its directory is a whole
page, as every directory base is. A translation that fails, whatever is kept in
its buffer, leaves the buffer as it is, and has marked entries only for a write
that was granted and has found the page clean. -/
theorem walk_marks_its_entries (order : ByteOrder) (board : β) (dtb : Word) (vaddr : VirtAddr)
    (access : AccessKind) (who : Privilege) :
    let path := PagePath.of order board dtb vaddr
    let walked := walk order board dtb vaddr access who
    path.OnlyMarks order board walked.2 ∧
      (path.grants access who = false → walked.2 = board) ∧
      (∀ a, PageEntry.dirty ⟨Bus.loadWord order walked.2 a⟩ =
        PageEntry.dirty ⟨Bus.loadWord order board a⟩) ∧
      (∀ a j, (Bus.readByte board a).getLsbD j = true →
        (Bus.readByte walked.2 a).getLsbD j = true) ∧
      (PageAligned dtb →
        (walk order walked.2 dtb vaddr access who).1 = walked.1 ∧
          ∀ a, Bus.readByte (walk order walked.2 dtb vaddr access who).2 a =
            Bus.readByte walked.2 a) ∧
      ∀ (m m' : Mmu) (dirbase : Dirbase) (kind : TrapKind) (board' : β), dirbase.dtb = dtb →
        m.translate order board dirbase vaddr access who = (.error kind, m', board') →
        m'.tlb = m.tlb ∧
          (kind = if access = .fetch then .instructionAccess else .dataAccess) ∧
          (board' = board ∨
            access = .write ∧ path.grants access who = true ∧ path.table.dirty = false ∧
              path.OnlyMarks order board board') := by
  intro path walked
  have hmarks : path.OnlyMarks order board walked.2 :=
    walk_onlyMarks order board dtb vaddr access who
  refine ⟨hmarks, fun hrefused => ?_, hmarks.dirty_eq, fun _ _ => hmarks.bit_kept,
    fun hdtb => walk_again hdtb vaddr access who, ?_⟩
  · show (walk order board dtb vaddr access who).2 = board
    rw [walk_of_refused hrefused]
  · rintro m m' dirbase kind board' rfl htranslated
    obtain ⟨hbuffer, hboard⟩ := Mmu.translate_error htranslated
    have hkind : kind = access.fault :=
      Mmu.translate_fault (congrArg Prod.fst htranslated)
    refine ⟨hbuffer, ?_, hboard.imp_right ?_⟩
    · rw [hkind]
      cases access <;> rfl
    · rintro ⟨hwrite, hgrants, hclean, rfl⟩
      have haccess : access = .write := by
        cases access with
        | write => rfl
        | fetch | read => simp [AccessKind.isWrite] at hwrite
      exact ⟨haccess, hgrants, hclean, hmarks⟩

/-- The first page of a directory that is its own first table is the directory,
and the entries of its addresses are one word. A write to it is granted, marks
that word once, and fails, because software has not set the dirty bit. -/
theorem walk_marks_its_entries_of_self_mapped :
    let path := PagePath.of .little selfMapped 0x1000#32 0xabc#32
    let walked := walk .little selfMapped 0x1000#32 0xabc#32 .write ⟨true, true⟩
    path.directoryAddr = path.tableAddr ∧ path.grants .write ⟨true, true⟩ = true ∧
      Bus.loadWord .little selfMapped 0x1000#32 = 0x1007#32 ∧
      Bus.loadWord .little walked.2 0x1000#32 = 0x1027#32 ∧
      (walk .little walked.2 0x1000#32 0xabc#32 .write ⟨true, true⟩).1 = walked.1 ∧
      ∃ m' board', (Mmu.new 64).translate .little selfMapped (.ofBits 0x1001#32) 0xabc#32 .write
          ⟨true, true⟩ = (.error .dataAccess, m', board') ∧
        m'.tlb = (Mmu.new 64).tlb ∧ path.OnlyMarks .little selfMapped board' := by
  intro path walked
  have hdtb : PageAligned 0x1000#32 := rfl
  obtain ⟨-, -, -, -, hagain, hfails⟩ :=
    walk_marks_its_entries .little selfMapped 0x1000#32 0xabc#32 .write ⟨true, true⟩
  have hrefused : ((Mmu.new 64).translate .little selfMapped (.ofBits 0x1001#32) 0xabc#32 .write
      ⟨true, true⟩).1.toOption = none := by
    decide +kernel
  refine ⟨by decide +kernel, by decide +kernel, by decide +kernel, by decide +kernel,
    (hagain hdtb).1, ?_⟩
  generalize htranslated : (Mmu.new 64).translate .little selfMapped (.ofBits 0x1001#32) 0xabc#32
    .write ⟨true, true⟩ = r at hrefused
  obtain ⟨result, m', board'⟩ := r
  cases result with
  | ok paddr => cases hrefused
  | error kind =>
      obtain ⟨hbuffer, rfl, hboard⟩ := hfails _ _ _ _ _ rfl htranslated
      refine ⟨m', board', rfl, hbuffer, ?_⟩
      rcases hboard with rfl | ⟨-, -, -, hmarks⟩
      · exact .refl _ _ _
      · exact hmarks

end Walks

end I860
