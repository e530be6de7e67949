import I860.Proofs.CompletedRuns
import I860.Proofs.ControlWrites
import I860.Proofs.Frames
import I860.Proofs.Privilege

/-!
# Instructions under page tables

From user mode, with paging on, an instruction reads what the page tables open
to user mode and writes what they let user mode write. This needs more than the
check of its access. The tables must be out of reach themselves
(`Cpu.ProtectsTables`), kept mappings must not say more than the tables do, and
addresses must still be translated, through the same tables, on behalf of user
mode. `Isolated` is all of that as an invariant.

What the tables are is read off the memory that the run starts from. Memory
changes on the way, but not in what matters: outside of the frames that user
mode may write, words get accessed bits and nothing else.

The deeds of instructions keep the invariant, each for a reason of its own
(`TablesInForce`). The exception is the write of a control register that changes
whether addresses are translated or through which tables. It is not refused to
user mode, so `Isolated.execute` has to ask for the tables to be kept.
-/

namespace I860

/-! ## What is open to user mode -/

namespace PagePath

/-- Both entries are there and open to user mode. -/
def openToUser (p : PagePath) : Bool :=
  (p.directory.present && p.directory.user) && (p.table.present && p.table.user)

/-- Both entries let user mode write, too. -/
def writableByUser (p : PagePath) : Bool :=
  p.openToUser && (p.directory.writable && p.table.writable)

/-- Stores from user mode complete. -/
def takesUserStores (p : PagePath) : Bool := p.writableByUser && p.table.dirty

variable {p p' : PagePath} {access : AccessKind} {who : Privilege}

theorem openToUser_of_grants (huser : who.user = true) (h : p.grants access who = true) :
    p.openToUser = true := by
  simp only [grants, permits, huser, Bool.and_eq_true, Bool.true_and, Bool.not_not] at h
  simp [openToUser, h]

theorem writableByUser_of_grants (huser : who.user = true) (h : p.grants .write who = true) :
    p.writableByUser = true := by
  have hopen := openToUser_of_grants huser h
  simp only [grants, permits, huser, AccessKind.isWrite, Bool.and_eq_true, Bool.true_or,
    Bool.true_and, Bool.not_not] at h
  simp [writableByUser, hopen, h]

/-- What entries grant that have got accessed bits, they granted before. -/
theorem OnlyAccessed.of_grants (h : p.OnlyAccessed p') (hgrants : p'.grants access who = true) :
    p.grants access who = true ∧ p'.table.frame = p.table.frame ∧
      p'.table.dirty = p.table.dirty := by
  obtain ⟨m, hdirectory⟩ := h.directory
  have hpresent : p.directory.present = true := by
    simp only [grants, hdirectory, PageEntry.present_mark, Bool.and_eq_true] at hgrants
    exact hgrants.1.1
  obtain ⟨-, m', htable⟩ := h.table hpresent
  have hsame : p'.grants access who = p.grants access who := by
    simp [grants, hdirectory, htable]
  refine ⟨hsame ▸ hgrants, ?_, ?_⟩
  · rw [htable, PageEntry.frame_mark]
  · rw [htable, PageEntry.dirty_mark, Bool.or_false]

end PagePath

variable {β : Type} [Bus β]

/-- Some address has entries of a kind, and lies in the given frame. -/
def Cpu.Maps (c : Cpu β) (kind : PagePath → Bool) (frame : Word) : Prop :=
  ∃ vaddr, kind (c.pathOf vaddr) = true ∧ (c.pathOf vaddr).table.frame = frame

/-- No page that user mode may write holds page tables. -/
def Cpu.ProtectsTables (c : Cpu β) : Prop :=
  Protects c.order c.board c.control.dirbase.dtb (c.Maps PagePath.writableByUser)

/-- The instruction accesses the byte at `a`: it is one of the bytes of its operand,
which begins at the address that the checks of the access have given. -/
def Executed.Accesses (x : Executed β) (access : AccessKind) (a : PhysAddr) : Prop :=
  ∃ vaddr width paddr d, x.word.access? x.before = some (vaddr, width, access) ∧
    checkData vaddr width access x.before = .ok paddr d ∧
    ∃ k < width.bytes, a = paddr + BitVec.ofNat 32 k

/-- The bytes that the instruction reads are in frames that `start` opens to
user mode, and those it writes in dirty ones that user mode may write. -/
def Executed.Confined (start : Cpu β) (x : Executed β) : Prop :=
  (∀ a, x.Accesses .read a → start.Maps PagePath.openToUser (a &&& pageFrameMask)) ∧
    ∀ a, x.Accesses .write a → start.Maps PagePath.takesUserStores (a &&& pageFrameMask)

/-- The instruction leaves alone whether addresses are translated, and through
which tables. -/
def Executed.KeepsTables (x : Executed β) : Prop :=
  x.after.control.dirbase.ate = x.before.control.dirbase.ate ∧
    x.after.control.dirbase.dtb = x.before.control.dirbase.dtb

instance (x : Executed β) : Decidable x.KeepsTables := inferInstanceAs (Decidable (_ ∧ _))

/-! ## The invariant -/

/-- What user mode needs to find to be confined. -/
structure Sandboxed (start : Cpu β) : Prop where
  aligned : PageAligned start.control.dirbase.dtb
  strict : start.params.trapMisaligned = true
  tables : start.ProtectsTables

/-- Addresses are translated through the tables of `start`, and these have got
accessed bits at most. -/
structure TablesInForce (start c : Cpu β) : Prop where
  order : c.order = start.order
  paged : c.control.dirbase.ate = true
  directory : c.control.dirbase.dtb = start.control.dirbase.dtb
  memory : KeptOutside start.order (start.Maps PagePath.writableByUser) start.board c.board
  buffer : TlbAgrees c.order c.control.dirbase.dtb c.board c.mmu.tlb

/-- A run from `start` is still in user mode, under the tables of `start`. -/
structure Isolated (start c : Cpu β) : Prop extends TablesInForce start c where
  user : InUser start.control.psr.pu c
  params : c.params = start.params

section Modes

omit [Bus β]

variable {c d : Cpu β}

theorem Effect.params_eq (h : Effect c d) : d.params = c.params := by
  cases h with
  | memory mmu icache board => rfl
  | compute hframe => exact congrArg (·.params) hframe
  | jump target => rfl
  | readControl reg =>
      cases reg with
      | fir =>
          dsimp only [Cpu.readControl]
          split <;> rfl
      | _ => rfl
  | writeControl reg v =>
      obtain ⟨control, mmu, icache, fpu, order, heq, -, -⟩ := c.writeControl_cases reg v
      rw [heq]

theorem Effects.params_eq (h : Effects c d) : d.params = c.params := by
  induction h with
  | refl => rfl
  | tail _ heffect ih => exact heffect.params_eq.trans ih

theorem Epsr.be_write_user (r : Epsr) (v : Word) : (r.write v true).be = r.be := by
  have hkept : (keptBits true)[23] = true ∧ namedBits[23] = true := by decide
  simp (disch := first | omega | decide) [write, ofBits, bits, getElem_flagBit,
    BitVec.getElem_shiftLeft, hkept]

/-- The byte order is not for user mode to change. -/
theorem Cpu.order_writeControl (huser : c.control.psr.u = true) (reg : ControlReg) (v : Word) :
    (c.writeControl reg v).order = c.order := by
  cases reg with
  | epsr =>
      have hbe : (c.control.epsr.write v c.control.psr.u).be = c.control.epsr.be := by
        rw [huser, Epsr.be_write_user]
      simp [writeControl, writeEpsr, setEpsr, hbe]
  | dirbase =>
      dsimp only [writeControl, writeDirbase]
      split
      · rfl
      · split <;> rfl
  | fir | psr | db | fsr => rfl

end Modes

/-! ## Tables in force -/

section Tables

variable {start c d : Cpu β} {vaddr : VirtAddr} {access : AccessKind} {paddr : PhysAddr}

namespace TablesInForce

variable (h : TablesInForce start c)

include h

theorem pageAligned (hstart : Sandboxed start) : PageAligned c.control.dirbase.dtb := by
  rw [h.directory]
  exact hstart.aligned

/-- The entries of an address are those that it had at the start. -/
theorem path (hstart : Sandboxed start) (vaddr : VirtAddr) :
    (start.pathOf vaddr).OnlyAccessed (c.pathOf vaddr) := by
  unfold Cpu.pathOf
  rw [h.order, h.directory]
  exact h.memory.path hstart.aligned hstart.tables vaddr

theorem computes {f : Cpu β → Cpu β} (hf : Computes f) : TablesInForce start (f c) := by
  have hsurroundings := hf.surroundings_eq c
  have hmmu : (f c).mmu = c.mmu := congrArg (·.mmu) hsurroundings
  have hboard : (f c).board = c.board := congrArg (·.board) hsurroundings
  obtain ⟨horder, hpaged, hdirectory, hmemory, hbuffer⟩ := h
  constructor
  · rw [hf.order, horder]
  · rw [hf.dirbase, hpaged]
  · rw [hf.dirbase, hdirectory]
  · rwa [hboard]
  · rwa [hf.order, hf.dirbase, hboard, hmmu]

theorem writeControl (huser : c.control.psr.u = true) {reg : ControlReg} {v : Word}
    (hate : (c.writeControl reg v).control.dirbase.ate = c.control.dirbase.ate)
    (hdtb : (c.writeControl reg v).control.dirbase.dtb = c.control.dirbase.dtb) :
    TablesInForce start (c.writeControl reg v) := by
  have horder := c.order_writeControl huser reg v
  have hboard : (c.writeControl reg v).board = c.board := by
    obtain ⟨control, mmu, icache, fpu, order, heq, -, -⟩ := c.writeControl_cases reg v
    rw [heq]
  obtain ⟨hflush, hkeep, -, -⟩ := c.buffers_writeControl reg v
  constructor
  · rw [horder, h.order]
  · rw [hate, h.paged]
  · rw [hdtb, h.directory]
  · rw [hboard]
    exact h.memory
  · by_cases hcommand : reg = .dirbase ∧ v.getLsbD 5 = true
    · rw [hflush hcommand]
      exact .of_flushed c.mmu.tlb.not_keeps_flush
    · rw [hkeep hcommand, horder, hdtb, hboard]
      exact h.buffer

end TablesInForce

variable [PlainMemory β]

/-- What a translation was granted that succeeds, and where it leads. -/
theorem Cpu.translated_mapped (hate : c.control.dirbase.ate = true)
    (hagrees : PageAgrees c.order c.control.dirbase.dtb c.board c.mmu.tlb vaddr)
    (h : (c.translated vaddr access).1 = .ok paddr) :
    (c.pathOf vaddr).grants access c.privilege = true ∧
      (access.isWrite = true → (c.pathOf vaddr).table.dirty = true) ∧
      paddr &&& pageFrameMask = (c.pathOf vaddr).table.frame := by
  have hwalk := (translate_eq_walk hate hagrees access c.privilege).1
  have hpath : PagePath.of c.order c.board c.control.dirbase.dtb vaddr = c.pathOf vaddr := rfl
  rw [Cpu.translated, hwalk, walk_eq, hpath] at h
  by_cases hgrants : (c.pathOf vaddr).grants access c.privilege = true
  · rw [if_pos hgrants] at h
    by_cases hclean : (access.isWrite && !(c.pathOf vaddr).table.dirty) = true
    · rw [if_pos hclean] at h
      cases h
    · rw [if_neg hclean] at h
      obtain rfl : (c.pathOf vaddr).mapping.address vaddr = paddr := Except.ok.inj h
      refine ⟨hgrants, fun hwrite => ?_, ?_⟩
      · rw [hwrite, Bool.true_and] at hclean
        simpa using hclean
      · rw [PageMapping.address_and_pageFrameMask]
        exact PageAligned.and_pageFrameMask (Dirbase.pageAligned_frame _)
  · rw [if_neg hgrants] at h
    cases h

namespace TablesInForce

variable (h : TablesInForce start c)

include h

/-- Where user mode gets to, the tables at the start let it. -/
theorem maps (hstart : Sandboxed start) (huser : c.control.psr.u = true)
    (hok : (c.translated vaddr access).1 = .ok paddr) :
    start.Maps PagePath.openToUser (paddr &&& pageFrameMask) ∧
      (access = .write → start.Maps PagePath.takesUserStores (paddr &&& pageFrameMask)) := by
  obtain ⟨hgrants, hdirty, hframe⟩ := Cpu.translated_mapped h.paged (h.buffer vaddr) hok
  obtain ⟨hgranted, hsame, hmark⟩ := (h.path hstart vaddr).of_grants hgrants
  refine ⟨⟨vaddr, PagePath.openToUser_of_grants huser hgranted, ?_⟩, fun hwrite => ?_⟩
  · rw [hframe, hsame]
  · subst hwrite
    refine ⟨vaddr, ?_, by rw [hframe, hsame]⟩
    rw [PagePath.takesUserStores, PagePath.writableByUser_of_grants huser hgranted, ← hmark,
      hdirty rfl, Bool.true_and]

theorem translating (hstart : Sandboxed start) (vaddr : VirtAddr) (access : AccessKind) :
    TablesInForce start (c.translating vaddr access) where
  order := h.order
  paged := h.paged
  directory := h.directory
  memory := by
    have hmarked : KeptOutside c.order (start.Maps PagePath.writableByUser) c.board
        (c.translating vaddr access).board :=
      .of_translate (h.pageAligned hstart) c.mmu c.board vaddr access c.privilege
    rw [h.order] at hmarked
    exact h.memory.trans hmarked
  buffer vaddr' := (h.buffer vaddr').translate (h.pageAligned hstart) vaddr access c.privilege

theorem deposit (hstart : Sandboxed start) {what : Deposit}
    (hin : ∀ k < what.width.bytes, start.Maps PagePath.writableByUser
      ((paddr + BitVec.ofNat 32 k) &&& pageFrameMask)) :
    TablesInForce start (c.deposit paddr what) := by
  have hput : KeptOutside c.order (start.Maps PagePath.writableByUser) c.board
      (c.deposit paddr what).board :=
    .of_put what c.board hin
  refine ⟨h.order, h.paged, h.directory, h.memory.trans (h.order ▸ hput), fun vaddr => ?_⟩
  -- The tables are not in the frames that are written, so what is kept still agrees.
  have hprotects : Protects c.order c.board c.control.dirbase.dtb
      (start.Maps PagePath.writableByUser) := by
    rw [h.order, h.directory]
    exact h.memory.protects hstart.aligned hstart.tables
  exact (h.buffer vaddr).of_marked (hput.path (h.pageAligned hstart) hprotects vaddr).marked

theorem fetch (hstart : Sandboxed start) {pc : VirtAddr} {w : Word}
    (hran : I860.fetch pc c = .ok w d) : TablesInForce start d := by
  cases hpeek : c.icache.peek pc with
  | some pair =>
      rw [fetch_of_hit hpeek] at hran
      cases hran
      exact { h with }
  | none =>
      have hwalked := h.translating hstart (InstructionCache.pairAddr pc) .fetch
      rw [fetch_of_miss_eq hpeek] at hran
      dsimp only at hran
      split at hran
      · cases hran
        exact { hwalked with }
      · cases hran

end TablesInForce

end Tables

/-! ## Instructions -/

namespace Isolated

variable [PlainMemory β] {start c d : Cpu β}

theorem accessed (h : Isolated start c) (hstart : Sandboxed start) {vaddr : VirtAddr}
    {width : Width} {access : AccessKind} {paddr : PhysAddr}
    (hdata : access.fault = .dataAccess) (hchecked : checkData vaddr width access c = .ok paddr d)
    {k : Nat} (hk : k < width.bytes) :
    start.Maps PagePath.openToUser ((paddr + BitVec.ofNat 32 k) &&& pageFrameMask) ∧
      (access = .write →
        start.Maps PagePath.takesUserStores ((paddr + BitVec.ofNat 32 k) &&& pageFrameMask)) := by
  have htraps : c.params.trapMisaligned = true := by
    rw [h.params]
    exact hstart.strict
  have hends := checkData_dataEnds c htraps vaddr width hdata
  rw [hchecked] at hends
  obtain ⟨found, _, hadmitted, -, rfl, -, -⟩ := hends.of_ok
  exact h.maps hstart h.user.1 (hadmitted.translated k hk)

theorem confined {x : Executed β} (h : Isolated start x.before) (hstart : Sandboxed start) :
    x.Confined start := by
  constructor
  · rintro a ⟨vaddr, width, paddr, d, -, hchecked, k, hk, rfl⟩
    exact (h.accessed hstart rfl hchecked hk).1
  · rintro a ⟨vaddr, width, paddr, d, -, hchecked, k, hk, rfl⟩
    exact (h.accessed hstart rfl hchecked hk).2 rfl

/-- A deed that keeps the tables, up to the write of a control register. -/
theorem deed (h : Isolated start c) (hstart : Sandboxed start) {deed : Deed β}
    (honest : deed.Honest) (hrun : deed.run c = .ok () d)
    (hate : d.control.dirbase.ate = c.control.dirbase.ate)
    (hdtb : d.control.dirbase.dtb = c.control.dirbase.dtb) : TablesInForce start d := by
  cases deed with
  | refuse kind note => cases hrun
  | compute f =>
      cases hrun
      exact h.computes honest
  | load vaddr width f =>
      rw [Deed.run, Exec.bind_apply, readMem, Exec.bind_apply] at hrun
      cases hchecked : checkData vaddr width .read c with
      | error fault m =>
          rw [hchecked] at hrun
          cases hrun
      | ok paddr m =>
          rw [hchecked] at hrun
          cases hrun
          rw [(translated_of_checkData hchecked).2]
          exact (h.translating hstart vaddr .read).computes (honest _)
  | store vaddr what f =>
      rw [Deed.run, Exec.bind_apply] at hrun
      cases hchecked : checkData vaddr what.width .write c with
      | error fault m =>
          rw [hchecked] at hrun
          cases hrun
      | ok paddr m =>
          have hin : ∀ k < what.width.bytes, start.Maps PagePath.writableByUser
              ((paddr + BitVec.ofNat 32 k) &&& pageFrameMask) := by
            intro k hk
            obtain ⟨vaddr', htakes, hframe⟩ := (h.accessed hstart rfl hchecked hk).2 rfl
            exact ⟨vaddr', (Bool.and_eq_true_iff.1 htakes).1, hframe⟩
          rw [hchecked] at hrun
          cases hrun
          rw [(translated_of_checkData hchecked).2]
          exact ((h.translating hstart vaddr .write).deposit hstart hin).computes honest
  | writeControl reg v =>
      cases hrun
      exact h.writeControl h.user.1 hate hdtb

theorem execute (h : Isolated start c) (hstart : Sandboxed start) {slot : Exec β Unit}
    {i : Instruction} (straight : i.op.isDelayedBranch = false)
    (ran : I860.execute slot i c = .ok () d) (hkeeps : Executed.KeepsTables ⟨i, c, d⟩) :
    Isolated start d := by
  have heffects := (execute_ends i c slot straight).completed ran
  obtain ⟨deed, hperforms⟩ := execute_deed slot i c straight
  have hrun : deed.run c = .ok () d := (hperforms.run c.surroundings).symm.trans ran
  exact ⟨h.deed hstart hperforms.honest hrun hkeeps.1 hkeeps.2, heffects.inUser h.user,
    heffects.params_eq.trans h.params⟩

/-- Between instructions only a return from a trap handler leaves user mode. -/
theorem passing (h : Isolated start c) (hstart : Sandboxed start) (hp : Passing c d)
    (hstays : start.control.psr.pu = true ∨ d.flags.dualRestored = false) :
    Isolated start d := by
  cases hp with
  | fetch hran =>
      have heffect := (lookedUp_of_fetch hran).effect
      exact ⟨h.fetch hstart hran, heffect.inUser h.user, heffect.params_eq.trans h.params⟩
  | noteIssue pc i => exact { h with }
  | place pc updated => exact { h with }
  | link r v => exact { h with }
  | loop lcc => exact { h with }
  | retire => exact { h with }
  | returnFromTrap =>
      obtain hpu | hstayed := hstays
      · exact { h with user := ⟨h.user.2.trans hpu, h.user.2⟩ }
      · cases hstayed

end Isolated

end I860
