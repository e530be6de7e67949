import I860.Board.OpenMemory
import I860.Proofs.PageTables

/-!
# The lookaside buffer is transparent

A translation that is answered from the lookaside buffer is the one that the
page tables would give now, and the walk that it saves would have left memory
as it is. `PageMapping.Agrees` says why, of one kept mapping and the entries it
came from: they are still there, grant what the mapping grants, and have their
accessed bits. The dirty bit alone may be behind, and only in one direction:
a mapping that was kept clean does not answer a write.

The agreement survives everything that keeps the tables, and a walk keeps them
whatever address it is for. So it holds over any sequence of translations,
flushes and updates by software (`TlbAgrees.of_steps`). No mapping is looked
at by the slot it is in. The buffer may hold a page twice for all that the
argument cares, except where a translation is repeated and has to find what
the first one has kept (`Tlb.lookup_insert_self`).
-/

namespace I860

/-! ## What the buffer keeps -/

namespace Tlb

/-- A mapping is in one of the slots of a page. -/
def Keeps (b : Tlb) (page : Word) (t : PageMapping) : Prop :=
  inSlot b.readSlots (b.setOf page) page = some t ∨
    inSlot b.writeSlots (b.setOf page) page = some t

theorem inSlot_insert (slots : Sparse 32 TlbEntry) (set set' : BitVec 32) (page page' : Word)
    (t : PageMapping) :
    inSlot (slots.insert set ⟨page, t⟩) set' page' =
      if set = set' then if page = page' then some t else none
      else inSlot slots set' page' := by
  unfold inSlot
  rw [Sparse.get?_insert]
  by_cases h : set = set'
  · rw [if_pos h, if_pos h]
  · rw [if_neg h, if_neg h]

theorem eq_of_inSlot_insert {slots : Sparse 32 TlbEntry} {set set' : BitVec 32}
    {page page' : Word} {t t' : PageMapping}
    (h : inSlot (slots.insert set ⟨page, t⟩) set' page' = some t') :
    (page' = page ∧ t' = t) ∨ inSlot slots set' page' = some t' := by
  rw [inSlot_insert] at h
  split at h
  · split at h
    · next hpage => exact .inl ⟨hpage.symm, (Option.some.inj h).symm⟩
    · cases h
  · exact .inr h

theorem inSlot_erase (slots : Sparse 32 TlbEntry) (set set' : BitVec 32) (page : Word) :
    inSlot (slots.erase set) set' page =
      if set = set' then none else inSlot slots set' page := by
  unfold inSlot
  rw [Sparse.get?_erase]
  by_cases h : set = set'
  · rw [if_pos h, if_pos h]
  · rw [if_neg h, if_neg h]

theorem inSlot_of_dropPage {slots : Sparse 32 TlbEntry} {set set' : BitVec 32}
    {page page' : Word} {t : PageMapping}
    (h : inSlot (dropPage slots set page) set' page' = some t) :
    inSlot slots set' page' = some t := by
  unfold dropPage at h
  split at h
  · rw [inSlot_erase] at h
    split at h
    · cases h
    · exact h
  · exact h

theorem inSlot_dropPage_self (slots : Sparse 32 TlbEntry) (set : BitVec 32) (page : Word) :
    inSlot (dropPage slots set page) set page = none := by
  unfold dropPage
  split
  · rw [inSlot_erase, if_pos rfl]
  · next h => exact Option.not_isSome_iff_eq_none.1 h

theorem setOf_insert (b : Tlb) (page page' : Word) (forWrite : Bool) (t : PageMapping) :
    (b.insert page forWrite t).setOf page' = b.setOf page' := by
  cases forWrite <;> rfl

theorem keeps_of_lookup {b : Tlb} {page : Word} {t : PageMapping}
    (h : b.lookup page = some t) : b.Keeps page t := by
  unfold lookup at h
  exact Option.or_eq_some_iff.1 h |>.imp id And.right

theorem not_keeps_new (sets : Nat) (page : Word) (t : PageMapping) :
    ¬(Tlb.new sets).Keeps page t := by
  rintro (h | h) <;> simp [new, inSlot] at h

theorem not_keeps_flush (b : Tlb) (page : Word) (t : PageMapping) : ¬b.flush.Keeps page t := by
  rintro (h | h) <;> simp [flush, inSlot] at h

/-- An insertion adds nothing but what is inserted. -/
theorem keeps_of_insert {b : Tlb} {page page' : Word} {forWrite : Bool} {t t' : PageMapping}
    (h : (b.insert page forWrite t).Keeps page' t') :
    (page' = page ∧ t' = t) ∨ b.Keeps page' t' := by
  unfold Keeps at h
  rw [setOf_insert] at h
  cases forWrite with
  | true =>
      obtain h | h := h
      · exact .inr (.inl (inSlot_of_dropPage h))
      · exact (eq_of_inSlot_insert h).imp id .inr
  | false =>
      obtain h | h := h
      · exact (eq_of_inSlot_insert h).imp id .inl
      · exact .inr (.inr (inSlot_of_dropPage h))

/-- What was inserted last for a page is found, in whichever slot an older copy
was. -/
theorem lookup_insert_self (b : Tlb) (page : Word) (forWrite : Bool) (t : PageMapping) :
    (b.insert page forWrite t).lookup page = some t := by
  rw [lookup, setOf_insert]
  cases forWrite with
  | true =>
      have hread : inSlot (b.insert page true t).readSlots (b.setOf page) page = none :=
        inSlot_dropPage_self b.readSlots (b.setOf page) page
      have hwrite : inSlot (b.insert page true t).writeSlots (b.setOf page) page = some t := by
        rw [insert, if_pos rfl, inSlot_insert, if_pos rfl, if_pos rfl]
      rw [hread, hwrite]
      rfl
  | false =>
      have hread : inSlot (b.insert page false t).readSlots (b.setOf page) page = some t := by
        rw [insert, if_neg Bool.false_ne_true, inSlot_insert, if_pos rfl, if_pos rfl]
      rw [hread]
      rfl

end Tlb

/-! ## Agreement with the tables -/

/-- A mapping agrees with the entries of an address. -/
structure PageMapping.Agrees (t : PageMapping) (p : PagePath) : Prop where
  directoryPresent : p.directory.present = true
  tablePresent : p.table.present = true
  directoryAccessed : p.directory.accessed = true
  tableAccessed : p.table.accessed = true
  frame : t.frame = p.mapping.frame
  writable : t.writable = p.mapping.writable
  user : t.user = p.mapping.user
  dirty : t.dirty = true → p.table.dirty = true

/-- Every mapping kept for the page of an address agrees with its entries. -/
def PageAgrees {β : Type} [Bus β] (order : ByteOrder) (dtb : Word) (board : β) (b : Tlb)
    (vaddr : VirtAddr) : Prop :=
  ∀ t, b.Keeps vaddr.pageNumber t → t.Agrees (PagePath.of order board dtb vaddr)

/-- Every kept mapping agrees with the tables at `dtb`. -/
def TlbAgrees {β : Type} [Bus β] (order : ByteOrder) (dtb : Word) (board : β) (b : Tlb) :
    Prop :=
  ∀ vaddr, PageAgrees order dtb board b vaddr

namespace PageMapping.Agrees

variable {t : PageMapping} {p p' : PagePath}

theorem of_marked (h : t.Agrees p) (hmarked : p.Marked p') : t.Agrees p' := by
  obtain ⟨a, d, hdirectory⟩ := hmarked.directory
  obtain ⟨-, a', d', htable⟩ := hmarked.table h.directoryPresent
  exact {
    directoryPresent := by rw [hdirectory, PageEntry.present_mark, h.directoryPresent]
    tablePresent := by rw [htable, PageEntry.present_mark, h.tablePresent]
    directoryAccessed := by
      rw [hdirectory, PageEntry.accessed_mark, h.directoryAccessed, Bool.true_or]
    tableAccessed := by rw [htable, PageEntry.accessed_mark, h.tableAccessed, Bool.true_or]
    frame := by rw [h.frame, PagePath.mapping, PagePath.mapping, htable, PageEntry.frame_mark]
    writable := by
      rw [h.writable, PagePath.mapping, PagePath.mapping, hdirectory, htable,
        PageEntry.writable_mark, PageEntry.writable_mark]
    user := by
      rw [h.user, PagePath.mapping, PagePath.mapping, hdirectory, htable,
        PageEntry.user_mark, PageEntry.user_mark]
    dirty := fun hd => by rw [htable, PageEntry.dirty_mark, h.dirty hd, Bool.true_or] }

theorem grants_eq (h : t.Agrees p) (access : AccessKind) (who : Privilege) :
    t.grants access who = p.grants access who := by
  rw [← p.grants_mapping access who h.directoryPresent h.tablePresent, PageMapping.grants,
    PageMapping.grants, h.writable, h.user]

theorem address_eq (h : t.Agrees p) (vaddr : VirtAddr) :
    t.address vaddr = p.mapping.address vaddr := by
  rw [PageMapping.address, PageMapping.address, h.frame]

/-- The access is on record already. -/
theorem readByte_record {β : Type} [Bus β] [PlainMemory β] {order : ByteOrder} {board : β}
    {dtb : Word} {vaddr : VirtAddr} (h : t.Agrees (PagePath.of order board dtb vaddr))
    (a : PhysAddr) :
    Bus.readByte ((PagePath.of order board dtb vaddr).record order board) a =
      Bus.readByte board a := by
  rw [PagePath.record, PageEntry.markAccessed_of_accessed _ h.directoryAccessed,
    PageEntry.markAccessed_of_accessed _ h.tableAccessed]
  have hfirst : ∀ a', Bus.readByte (Bus.storeWord order board
      (PagePath.of order board dtb vaddr).directoryAddr
      (PagePath.of order board dtb vaddr).directory.raw) a' = Bus.readByte board a' :=
    fun a' => readByte_storeWord_loadWord (fun _ => rfl) _ a'
  exact readByte_storeWord_loadWord hfirst _ a

end PageMapping.Agrees

section Agreement

variable {β : Type} [Bus β] {order : ByteOrder} {dtb : Word} {board board' : β} {b : Tlb}

theorem TlbAgrees.of_flushed (hempty : ∀ page t, ¬b.Keeps page t) :
    TlbAgrees order dtb board b :=
  fun _ t hkeeps => absurd hkeeps (hempty _ t)

theorem PageAgrees.of_marked {vaddr : VirtAddr} (h : PageAgrees order dtb board b vaddr)
    (hmarked : (PagePath.of order board dtb vaddr).Marked (PagePath.of order board' dtb vaddr)) :
    PageAgrees order dtb board' b vaddr :=
  fun t hkeeps => (h t hkeeps).of_marked hmarked

variable [PlainMemory β]

/-- The entries of an address agree with what a walk makes of them, once it
has recorded the access. -/
theorem PagePath.mapping_agrees (hdtb : PageAligned dtb) {vaddr : VirtAddr} {access : AccessKind}
    {who : Privilege} (hgrants : (PagePath.of order board dtb vaddr).grants access who = true) :
    (PagePath.of order board dtb vaddr).mapping.Agrees
      (PagePath.of order ((PagePath.of order board dtb vaddr).record order board) dtb vaddr) := by
  simp only [PagePath.grants, Bool.and_eq_true] at hgrants
  obtain ⟨⟨hdirectoryPresent, -⟩, htablePresent, -⟩ := hgrants
  rw [PagePath.of_record order hdtb board vaddr]
  constructor <;> simp [hdirectoryPresent, htablePresent, PagePath.mapping]

/-- A walk that succeeds may keep its result. -/
theorem PageAgrees.of_insert (hdtb : PageAligned dtb) {vaddr vaddr' : VirtAddr}
    {access : AccessKind} {who : Privilege}
    (hgrants : (PagePath.of order board dtb vaddr).grants access who = true)
    (h : PageAgrees order dtb board b vaddr') (forWrite : Bool) :
    PageAgrees order dtb ((PagePath.of order board dtb vaddr).record order board)
      (b.insert vaddr.pageNumber forWrite (PagePath.of order board dtb vaddr).mapping) vaddr' := by
  intro t hkeeps
  obtain ⟨hpage, rfl⟩ | hkeeps := Tlb.keeps_of_insert hkeeps
  · rw [PagePath.of_congr order _ dtb vaddr hpage]
    exact PagePath.mapping_agrees hdtb hgrants
  · exact h.of_marked (record_keepsTables order hdtb board vaddr vaddr') t hkeeps

end Agreement

/-! ## Translating -/

section Translate

variable {β : Type} [Bus β] {order : ByteOrder} {dtb : Word} {board : β}

/-- Translating through the tables, whatever is kept. -/
theorem Mmu.translateByWalk_eq (m : Mmu) (order : ByteOrder) (board : β) (dtb : Word)
    (vaddr : VirtAddr) (access : AccessKind) (who : Privilege) :
    ((m.translateByWalk order board dtb vaddr access who).1,
      (m.translateByWalk order board dtb vaddr access who).2.2) =
    ((walk order board dtb vaddr access who).1.map (·.address vaddr),
      (walk order board dtb vaddr access who).2) := by
  unfold Mmu.translateByWalk
  dsimp only
  split
  · next hwalk => rw [hwalk]; rfl
  · next hwalk => rw [hwalk]; rfl

/-- What a kept mapping refuses, a walk refuses. -/
theorem PageMapping.Agrees.walk_of_refused {vaddr : VirtAddr} {t : PageMapping}
    {access : AccessKind} {who : Privilege} (h : t.Agrees (PagePath.of order board dtb vaddr))
    (hrefused : t.grants access who = false) :
    walk order board dtb vaddr access who = (.error access.fault, board) := by
  rw [h.grants_eq] at hrefused
  rw [walk_eq, if_neg (Bool.eq_false_iff.1 hrefused)]

variable [PlainMemory β]

theorem PageAgrees.translateByWalk {m : Mmu} (hdtb : PageAligned dtb) {vaddr' : VirtAddr}
    (h : PageAgrees order dtb board m.tlb vaddr') (vaddr : VirtAddr) (access : AccessKind)
    (who : Privilege) :
    PageAgrees order dtb (m.translateByWalk order board dtb vaddr access who).2.2
      (m.translateByWalk order board dtb vaddr access who).2.1.tlb vaddr' := by
  unfold Mmu.translateByWalk
  dsimp only
  rw [walk_eq]
  by_cases hgrants : (PagePath.of order board dtb vaddr).grants access who = true
  · rw [if_pos hgrants]
    split
    · next hclean =>
        obtain ⟨-, rfl⟩ := Prod.mk.inj hclean
        exact h.of_marked (record_keepsTables order hdtb board vaddr vaddr')
    · next hresult =>
        obtain ⟨hmapping, rfl⟩ := Prod.mk.inj hresult
        split at hmapping
        · cases hmapping
        · cases hmapping
          exact h.of_insert hdtb hgrants access.isWrite
  · rw [if_neg hgrants]
    exact h

/-- Translations keep the agreement, whatever addresses they are for. -/
theorem PageAgrees.translate {m : Mmu} {dirbase : Dirbase} (hdtb : PageAligned dirbase.dtb)
    {vaddr' : VirtAddr} (h : PageAgrees order dirbase.dtb board m.tlb vaddr')
    (vaddr : VirtAddr) (access : AccessKind) (who : Privilege) :
    PageAgrees order dirbase.dtb (m.translate order board dirbase vaddr access who).2.2
      (m.translate order board dirbase vaddr access who).2.1.tlb vaddr' := by
  obtain ⟨_, heq, -⟩ | ⟨_, heq⟩ | heq := m.translate_cases order board dirbase vaddr access who
  · rw [heq]
    exact h
  · rw [heq]
    exact h
  · rw [heq]
    exact h.translateByWalk hdtb vaddr access who

/-- What a kept mapping answers, a walk answers, and the board that it leaves
reads the same. -/
theorem PageMapping.Agrees.walk_of_granted {vaddr : VirtAddr} {t : PageMapping}
    {access : AccessKind} {who : Privilege} (h : t.Agrees (PagePath.of order board dtb vaddr))
    (hgranted : t.grants access who = true) (hclean : (access.isWrite && !t.dirty) = false) :
    (walk order board dtb vaddr access who).1.map (·.address vaddr) = .ok (t.address vaddr) ∧
      ∀ a, Bus.readByte (walk order board dtb vaddr access who).2 a =
        Bus.readByte board a := by
  have hdirty : (access.isWrite && !(PagePath.of order board dtb vaddr).table.dirty) =
      false := by
    cases hwrite : access.isWrite with
    | false => rfl
    | true =>
        rw [hwrite, Bool.true_and, Bool.not_eq_false'] at hclean
        rw [h.dirty hclean]
        rfl
  rw [h.grants_eq] at hgranted
  rw [walk_eq, if_pos hgranted, if_neg (Bool.eq_false_iff.1 hdirty)]
  refine ⟨?_, h.readByte_record⟩
  show Except.ok ((PagePath.of order board dtb vaddr).mapping.address vaddr) = _
  rw [h.address_eq]

variable {m : Mmu} {dirbase : Dirbase}

/-- A translation gives what a walk would have given. -/
theorem translate_eq_walk (hate : dirbase.ate = true) {vaddr : VirtAddr}
    (h : PageAgrees order dirbase.dtb board m.tlb vaddr) (access : AccessKind)
    (who : Privilege) :
    (m.translate order board dirbase vaddr access who).1 =
        (walk order board dirbase.dtb vaddr access who).1.map (·.address vaddr) ∧
      ∀ a, Bus.readByte (m.translate order board dirbase vaddr access who).2.2 a =
        Bus.readByte (walk order board dirbase.dtb vaddr access who).2 a := by
  obtain ⟨hresult, hboard⟩ :=
    Prod.mk.inj (m.translateByWalk_eq order board dirbase.dtb vaddr access who)
  have hon : (!dirbase.ate) = false := by rw [hate]; rfl
  unfold Mmu.translate
  rw [if_neg (Bool.eq_false_iff.1 hon)]
  split
  · exact ⟨hresult, fun a => by rw [hboard]⟩
  · next t hlookup =>
      have hagrees := h t (Tlb.keeps_of_lookup hlookup)
      cases hgrants : t.grants access who with
      | false =>
          rw [hagrees.walk_of_refused hgrants]
          exact ⟨rfl, fun _ => rfl⟩
      | true =>
          cases hclean : access.isWrite && !t.dirty with
          | true => exact ⟨hresult, fun a => by rw [← hboard]; rfl⟩
          | false =>
              obtain ⟨hanswer, hsame⟩ := hagrees.walk_of_granted hgrants hclean
              exact ⟨hanswer.symm, fun a => (hsame a).symm⟩

end Translate

/-! ## Translating again

A translation that has succeeded leaves a mapping that answers the same access
the next time, and needs no board to do so. -/

section Again

/-- The buffer has the answer to an access. -/
def Tlb.Answers (b : Tlb) (vaddr : VirtAddr) (access : AccessKind) (who : Privilege)
    (paddr : PhysAddr) : Prop :=
  ∃ t, b.lookup vaddr.pageNumber = some t ∧ t.grants access who = true ∧
    (access.isWrite && !t.dirty) = false ∧ t.address vaddr = paddr

variable {β : Type} [Bus β] {order : ByteOrder} {board board' : β} {dirbase : Dirbase}
  {m m' : Mmu} {vaddr : VirtAddr} {access : AccessKind} {who : Privilege} {paddr : PhysAddr}

theorem Tlb.Answers.translate (hate : dirbase.ate = true)
    (h : m.tlb.Answers vaddr access who paddr) :
    m.translate order board dirbase vaddr access who =
      (.ok paddr, { m with hits := m.hits + 1 }, board) := by
  obtain ⟨t, hlookup, hgrants, hclean, haddr⟩ := h
  unfold Mmu.translate
  simp only [hate, hlookup, hgrants, hclean, haddr, Bool.not_true, Bool.false_eq_true, if_false]

theorem Tlb.answers_of_translateByWalk {dtb : Word}
    (h : m.translateByWalk order board dtb vaddr access who = (.ok paddr, m', board')) :
    m'.tlb.Answers vaddr access who paddr := by
  unfold Mmu.translateByWalk at h
  rw [walk_eq] at h
  cases hgrants : (PagePath.of order board dtb vaddr).grants access who with
  | false => simp [hgrants] at h
  | true =>
      cases hclean : access.isWrite && !(PagePath.of order board dtb vaddr).table.dirty with
      | true => simp [hgrants, hclean] at h
      | false =>
          simp only [hgrants, hclean, Bool.false_eq_true, if_true, if_false,
            Prod.mk.injEq] at h
          obtain ⟨haddr, rfl, -⟩ := h
          refine ⟨_, Tlb.lookup_insert_self _ _ _ _, ?_, hclean, Except.ok.inj haddr⟩
          have hpresent := hgrants
          simp only [PagePath.grants, Bool.and_eq_true] at hpresent
          rw [PagePath.grants_mapping _ access who hpresent.1.1 hpresent.2.1, hgrants]

theorem Tlb.answers_of_translate (hate : dirbase.ate = true)
    (h : m.translate order board dirbase vaddr access who = (.ok paddr, m', board')) :
    m'.tlb.Answers vaddr access who paddr := by
  unfold Mmu.translate at h
  rw [hate] at h
  cases hlookup : m.tlb.lookup vaddr.pageNumber with
  | none =>
      rw [hlookup] at h
      exact answers_of_translateByWalk h
  | some t =>
      cases hgrants : t.grants access who with
      | false => simp [hlookup, hgrants] at h
      | true =>
          cases hclean : access.isWrite && !t.dirty with
          | true =>
              simp only [hlookup, hgrants, hclean, Bool.not_true, Bool.false_eq_true, if_false,
                if_true] at h
              exact answers_of_translateByWalk h
          | false =>
              simp only [hlookup, hgrants, hclean, Bool.not_true, Bool.false_eq_true, if_false,
                Prod.mk.injEq] at h
              obtain ⟨haddr, rfl, -⟩ := h
              exact ⟨t, hlookup, hgrants, hclean, Except.ok.inj haddr⟩

end Again

/-! ## Histories -/

section Histories

variable {β : Type} [Bus β]

/-- What happens to a lookaside buffer and to memory, with the tables at `dtb`
all along: addresses are translated, the buffer is flushed, and software writes
to memory, to the entries of tables only to set accessed and dirty bits. -/
inductive TranslationStep (order : ByteOrder) (dtb : Word) : Mmu × β → Mmu × β → Prop
  | translate (m : Mmu) (board : β) {dirbase : Dirbase} (base : dirbase.dtb = dtb)
      (vaddr : VirtAddr) (access : AccessKind) (who : Privilege) :
      TranslationStep order dtb (m, board)
        (m.translate order board dirbase vaddr access who).2
  | flush (m : Mmu) (board : β) : TranslationStep order dtb (m, board) (m.flush, board)
  | software (m : Mmu) {board board' : β} (kept : TablesKept order dtb board board') :
      TranslationStep order dtb (m, board) (m, board')

variable [PlainMemory β] {order : ByteOrder} {dtb : Word}

theorem TlbAgrees.step (hdtb : PageAligned dtb) {s s' : Mmu × β}
    (h : TranslationStep order dtb s s') (hs : TlbAgrees order dtb s.2 s.1.tlb) :
    TlbAgrees order dtb s'.2 s'.1.tlb := by
  cases h with
  | translate m board hbase vaddr access who =>
      subst hbase
      exact fun vaddr' => (hs vaddr').translate hdtb vaddr access who
  | flush m board => exact .of_flushed m.tlb.not_keeps_flush
  | software m hkept => exact fun vaddr => (hs vaddr).of_marked (hkept vaddr)

theorem TlbAgrees.of_steps (hdtb : PageAligned dtb) {sets : Nat} {board board' : β} {m : Mmu}
    (h : Relation.ReflTransGen (TranslationStep order dtb) (Mmu.new sets, board) (m, board')) :
    TlbAgrees order dtb board' m.tlb := by
  have hstart : TlbAgrees order dtb board (Mmu.new sets).tlb :=
    .of_flushed (Tlb.not_keeps_new sets)
  have hall : ∀ s : Mmu × β, Relation.ReflTransGen (TranslationStep order dtb)
      (Mmu.new sets, board) s → TlbAgrees order dtb s.2 s.1.tlb := by
    intro s hs
    induction hs with
    | refl => exact hstart
    | tail _ hstep ih => exact ih.step hdtb hstep
  exact hall (m, board') h

/-- After any history of a lookaside buffer, a translation gives the address
or the trap that a walk through the tables gives, leaves memory as the walk
leaves it, and answers the same question again without the board. -/
theorem translation_is_transparent (base : Word) (sets : Nat) {start board : β} {m : Mmu}
    (history : Relation.ReflTransGen (TranslationStep order (base &&& Dirbase.frameBits))
      (Mmu.new sets, start) (m, board))
    {dirbase : Dirbase} (hbase : dirbase.dtb = base &&& Dirbase.frameBits)
    (hate : dirbase.ate = true) (vaddr : VirtAddr) (access : AccessKind) (who : Privilege) :
    (m.translate order board dirbase vaddr access who).1 =
        (walk order board dirbase.dtb vaddr access who).1.map (·.address vaddr) ∧
      (∀ a, Bus.readByte (m.translate order board dirbase vaddr access who).2.2 a =
        Bus.readByte (walk order board dirbase.dtb vaddr access who).2 a) ∧
      ∀ paddr m' board', m.translate order board dirbase vaddr access who =
          (.ok paddr, m', board') →
        ∀ other : β, m'.translate order other dirbase vaddr access who =
          (.ok paddr, { m' with hits := m'.hits + 1 }, other) := by
  have hagrees := TlbAgrees.of_steps (Dirbase.pageAligned_frame base) history
  rw [← hbase] at hagrees
  obtain ⟨hresult, hmemory⟩ := translate_eq_walk hate (hagrees vaddr) access who
  refine ⟨hresult, hmemory, fun paddr m' board' htranslated other => ?_⟩
  exact (Tlb.answers_of_translate hate htranslated).translate hate

/-- A page directory at 0x1000 that is its own first table, whose second entry
is a writable page at 0x5000. -/
def selfMapped : OpenMemory :=
  Bus.storeWord .little (Bus.storeWord .little .blank 0x1000#32 0x1007#32) 0x1004#32 0x5007#32

/-- The page at 0x5000 is read, software sets its dirty bit, and it is written. -/
theorem translation_is_transparent_of_write :
    let dirbase := Dirbase.ofBits 0x1001#32
    let who : Privilege := ⟨true, true⟩
    let read := (Mmu.new 64).translate .little selfMapped dirbase 0x1abc#32 .read who
    let dirtied := Bus.storeWord .little read.2.2 0x1004#32
      (PageEntry.mark ⟨Bus.loadWord .little read.2.2 0x1004#32⟩ false true).raw
    (read.2.1.translate .little dirtied dirbase 0x1abc#32 .write who).1.toOption =
        some 0x5abc#32 ∧
      ((walk .little dirtied dirbase.dtb 0x1abc#32 .write who).1.map
        (·.address 0x1abc#32)).toOption = some 0x5abc#32 := by
  intro dirbase who read dirtied
  have hbase : dirbase.dtb = 0x1001#32 &&& Dirbase.frameBits := rfl
  have hkept : TablesKept .little (0x1001#32 &&& Dirbase.frameBits) read.2.2 dirtied :=
    have haligned : WordAligned 0x1004#32 := rfl
    storeWord_mark_tablesKept (Dirbase.pageAligned_frame _) haligned false true
  have hhistory := Relation.ReflTransGen.tail
    (.single (TranslationStep.translate (.new 64) selfMapped hbase 0x1abc#32 .read who))
    (TranslationStep.software read.2.1 hkept)
  have hwrite : (read.2.1.translate .little dirtied dirbase 0x1abc#32 .write who).1.toOption =
      some 0x5abc#32 := by
    decide +kernel
  have htransparent :=
    translation_is_transparent 0x1001#32 64 hhistory hbase rfl 0x1abc#32 .write who
  refine ⟨hwrite, ?_⟩
  rw [← htransparent.1]
  exact hwrite

end Histories

end I860
