import I860.Cpu.Reset
import I860.Proofs.Course
import I860.Proofs.Lookaside

/-!
# What becomes of the buffers

A fetch depends on the instruction cache, on the lookaside buffer and on the
directory base. Whatever a processor does next (`Act`), one of two things is
true afterwards (`Act.upkeep`). Either the cache is empty, as after a reset
or a change of the directory base. Or translation is as before, each mapping
in the lookaside buffer was there before or is what the tables said at the
start of the act, and each line in the cache was there before or is the pair
that the act has just fetched.

An instruction looks up one address at most, and does so before anything else.
So all of its routines fall under `LooksUp`, those that are refused included,
and only a write of the directory base may empty the cache.
-/

namespace I860

namespace InstructionCache

/-- The cache has a pair to answer with for the address `tag` of a pair. -/
def Keeps (ic : InstructionCache) (tag : VirtAddr) (pair : Double) : Prop :=
  ic.lines.get? (ic.lineOf tag) = some ⟨tag, pair⟩

theorem lineOf_pairAddr (ic : InstructionCache) (a : VirtAddr) :
    ic.lineOf (pairAddr a) = ic.lineOf a := by
  have hshift : pairAddr a >>> 3 = a >>> 3 := by
    apply BitVec.eq_of_getLsbD_eq
    intro i hi
    have hmask : (0xfffffff8#32).getLsbD (3 + i) = decide (3 + i < 32) := by
      decide +revert
    rw [BitVec.getLsbD_ushiftRight, BitVec.getLsbD_ushiftRight, pairAddr, BitVec.getLsbD_and,
      hmask]
    by_cases hlt : 3 + i < 32
    · rw [decide_eq_true hlt, Bool.and_true]
    · rw [BitVec.getLsbD_of_ge a (3 + i) (by omega), Bool.false_and]
  rw [lineOf, lineOf, hshift]

theorem peek_eq_some_iff (ic : InstructionCache) (a : VirtAddr) (pair : Double) :
    ic.peek a = some pair ↔ ic.Keeps (pairAddr a) pair := by
  unfold peek Keeps
  rw [lineOf_pairAddr]
  cases hline : ic.lines.get? (ic.lineOf a) with
  | none => simp
  | some line =>
      obtain ⟨tag, kept⟩ := line
      simp

theorem not_keeps_invalidate (ic : InstructionCache) (tag : VirtAddr) (pair : Double) :
    ¬ic.invalidate.Keeps tag pair := by
  simp [Keeps, invalidate]

theorem keeps_of_fill {ic : InstructionCache} {a tag : VirtAddr} {pair pair' : Double}
    (h : (ic.fill a pair').Keeps tag pair) :
    (tag = pairAddr a ∧ pair = pair') ∨ ic.Keeps tag pair := by
  have hget : (ic.lines.insert (ic.lineOf a) ⟨pairAddr a, pair'⟩).get? (ic.lineOf tag) =
      some ⟨tag, pair⟩ := h
  rw [Sparse.get?_insert] at hget
  split at hget
  · cases hget
    exact .inl ⟨rfl, rfl⟩
  · exact .inr hget

end InstructionCache

variable {β : Type}

namespace Cpu

/-- On whose behalf the processor makes its accesses. -/
def privilege (c : Cpu β) : Privilege := ⟨c.control.psr.u, c.control.epsr.wp⟩

/-- The entries of an address in the page tables in use. -/
def pathOf [Bus β] (c : Cpu β) (vaddr : VirtAddr) : PagePath :=
  .of c.order c.board c.control.dirbase.dtb vaddr

end Cpu

/-- A mapping that is kept after a translation was kept before it, or is what
the tables say of the page that was translated. -/
theorem Mmu.kept_or_translated [Bus β] {m : Mmu} {order : ByteOrder} {board : β}
    {dirbase : Dirbase} {vaddr vaddr' : VirtAddr} {access : AccessKind} {who : Privilege}
    {t : PageMapping}
    (h : (m.translate order board dirbase vaddr access who).2.1.tlb.Keeps
      vaddr'.pageNumber t) :
    m.tlb.Keeps vaddr'.pageNumber t ∨
      vaddr'.pageNumber = vaddr.pageNumber ∧
        (∃ paddr, (m.translate order board dirbase vaddr access who).1 = .ok paddr) ∧
        t = (PagePath.of order board dirbase.dtb vaddr').mapping := by
  have hwalk : (m.translateByWalk order board dirbase.dtb vaddr access who).2.1.tlb.Keeps
      vaddr'.pageNumber t →
      m.tlb.Keeps vaddr'.pageNumber t ∨
        vaddr'.pageNumber = vaddr.pageNumber ∧
          (∃ paddr, (m.translateByWalk order board dirbase.dtb vaddr access who).1 = .ok paddr) ∧
          t = (PagePath.of order board dirbase.dtb vaddr').mapping := by
    intro h
    unfold translateByWalk at h ⊢
    rw [walk_eq] at h ⊢
    dsimp only at h ⊢
    split at h
    · exact .inl h
    · next hwalked =>
        obtain ⟨hpage, rfl⟩ | hkept := Tlb.keeps_of_insert h
        · rw [PagePath.of_congr order board dirbase.dtb vaddr hpage]
          split at hwalked
          · split at hwalked
            · cases hwalked
            · cases hwalked
              exact .inr ⟨hpage, ⟨_, rfl⟩, rfl⟩
          · cases hwalked
        · exact .inl hkept
  obtain ⟨_, heq, -⟩ | ⟨_, heq⟩ | heq := m.translate_cases order board dirbase vaddr access who
  · rw [heq] at h
    exact .inl h
  · rw [heq] at h
    exact .inl h
  · rw [heq] at h ⊢
    exact hwalk h

/-! ## Instructions -/

/-- What fetches depend on besides memory has been left alone. -/
structure BuffersKept (c d : Cpu β) : Prop where
  ate : d.control.dirbase.ate = c.control.dirbase.ate
  dtb : d.control.dirbase.dtb = c.control.dirbase.dtb
  tlb : d.mmu.tlb = c.mmu.tlb
  lines : d.icache.Keeps = c.icache.Keeps

namespace BuffersKept

variable {c d e : Cpu β}

theorem refl (c : Cpu β) : BuffersKept c c := ⟨rfl, rfl, rfl, rfl⟩

theorem of_frame (h : d.frame = c.frame) : BuffersKept c d :=
  ⟨congrArg (·.control.dirbase.ate) h, congrArg (·.control.dirbase.dtb) h,
    congrArg (·.mmu.tlb) h, congrArg (·.icache.Keeps) h⟩

end BuffersKept

variable [Bus β]

/-- Addresses are translated as before, and the lookaside buffer keeps what it
kept, or what the tables say. -/
structure Consults (c d : Cpu β) : Prop where
  ate : d.control.dirbase.ate = c.control.dirbase.ate
  dtb : d.control.dirbase.dtb = c.control.dirbase.dtb
  mappings : ∀ vaddr t, d.mmu.tlb.Keeps vaddr.pageNumber t →
    c.mmu.tlb.Keeps vaddr.pageNumber t ∨ t = (c.pathOf vaddr).mapping

/-- At most one address has been looked up, and the cache is as it was. -/
structure LooksUp (c d : Cpu β) : Prop extends Consults c d where
  lines : d.icache.Keeps = c.icache.Keeps

namespace LooksUp

variable {α γ : Type} {c d e : Cpu β}

theorem of_kept (h : BuffersKept c d) : LooksUp c d :=
  ⟨⟨h.ate, h.dtb, fun _ _ hkeeps => .inl (h.tlb ▸ hkeeps)⟩, h.lines⟩

theorem of_frame (h : d.frame = c.frame) : LooksUp c d := .of_kept (.of_frame h)

theorem tail (h : LooksUp c d) (h' : BuffersKept d e) : LooksUp c e :=
  ⟨⟨h'.ate.trans h.ate, h'.dtb.trans h.dtb,
    fun vaddr t hkeeps => h.mappings vaddr t (h'.tlb ▸ hkeeps)⟩, h'.lines.trans h.lines⟩

theorem bind {x : Exec β α} {f : α → Exec β γ} (hx : LooksUp c (finalState (x c)))
    (hf : ∀ a d, BuffersKept d (finalState (f a d))) :
    LooksUp c (finalState ((x >>= f) c)) := by
  rw [Exec.bind_apply]
  cases hrun : x c with
  | ok a d =>
      rw [hrun] at hx
      exact hx.tail (hf a d)
  | error e d =>
      rw [hrun] at hx
      exact hx

theorem raise (kind : TrapKind) : LooksUp c (finalState ((raise kind : Exec β α) c)) :=
  .of_kept ⟨rfl, rfl, rfl, rfl⟩

end LooksUp

section Routines

open Execute

variable (c : Cpu β) (i : Instruction)

theorem translate_apply (vaddr : VirtAddr) (access : AccessKind) :
    translate vaddr access c =
      match c.mmu.translate c.order c.board c.control.dirbase vaddr access c.privilege with
      | (.ok paddr, mmu, board) => .ok paddr { c with mmu := mmu, board := board }
      | (.error kind, mmu, board) => raise kind { c with mmu := mmu, board := board } := by
  unfold translate Cpu.privilege
  rw [Exec.bind_apply, Exec.get_apply]
  dsimp only
  rw [Exec.bind_apply, Exec.set_apply]
  dsimp only
  split
  · next hresult => rw [hresult]; rfl
  · next hresult => rw [hresult]

theorem translate_looksUp (vaddr : VirtAddr) (access : AccessKind) :
    LooksUp c (finalState (translate vaddr access c)) := by
  have hmappings : ∀ vaddr' t,
      (c.mmu.translate c.order c.board c.control.dirbase vaddr access c.privilege).2.1.tlb.Keeps
        vaddr'.pageNumber t →
      c.mmu.tlb.Keeps vaddr'.pageNumber t ∨ t = (c.pathOf vaddr').mapping :=
    fun _ _ h => (Mmu.kept_or_translated h).imp_right fun hnew => hnew.2.2
  rw [translate_apply]
  generalize c.mmu.translate c.order c.board c.control.dirbase vaddr access c.privilege = r
    at hmappings ⊢
  obtain ⟨result, mmu, board⟩ := r
  cases result with
  | ok paddr => exact ⟨⟨rfl, rfl, hmappings⟩, rfl⟩
  | error kind => exact ⟨⟨rfl, rfl, hmappings⟩, rfl⟩

theorem checkData_looksUp (vaddr : VirtAddr) (width : Width) (access : AccessKind) :
    LooksUp c (finalState (checkData vaddr width access c)) := by
  rw [checkData_eq]
  split
  · exact .raise .dataAccess
  · exact translate_looksUp c vaddr access

theorem readMem_looksUp (vaddr : VirtAddr) (width : Width) :
    LooksUp c (finalState (readMem vaddr width c)) :=
  (checkData_looksUp c vaddr width .read).bind fun _ d => .refl d

theorem writeMem_looksUp (vaddr : VirtAddr) (width : Width) (value : Quad) :
    LooksUp c (finalState (writeMem vaddr width value c)) :=
  (checkData_looksUp c vaddr width .write).bind fun _ _ => ⟨rfl, rfl, rfl, rfl⟩

theorem writeMasked_looksUp (vaddr : VirtAddr) (value : Double) (mask : Byte) :
    LooksUp c (finalState (writeMasked vaddr value mask c)) :=
  (checkData_looksUp c vaddr .double .write).bind fun _ _ => ⟨rfl, rfl, rfl, rfl⟩

theorem ldInt_looksUp : LooksUp c (finalState (ldInt i c)) := by
  unfold ldInt
  rw [Exec.bind_apply, Exec.get_apply]
  exact (readMem_looksUp c _ _).bind fun _ _ => .of_frame (Cpu.frame_writeInt ..)

theorem stInt_looksUp : LooksUp c (finalState (stInt i c)) := by
  unfold stInt
  rw [Exec.bind_apply, Exec.get_apply]
  exact writeMem_looksUp c _ _ _

theorem fld_looksUp : LooksUp c (finalState (fld i c)) := by
  unfold fld
  rw [Exec.bind_apply, Exec.get_apply]
  exact (readMem_looksUp c _ _).bind fun _ _ => .of_frame (by simp [finalState])

theorem pfld_looksUp : LooksUp c (finalState (pfld i c)) := by
  unfold pfld
  rw [Exec.ite_apply]
  split
  · exact .raise .instruction
  · rw [Exec.bind_apply, Exec.get_apply]
    exact (readMem_looksUp c _ _).bind fun _ _ => .of_frame (by simp [finalState])

theorem fst_looksUp : LooksUp c (finalState (fst i c)) := by
  unfold fst
  rw [Exec.bind_apply, Exec.get_apply]
  exact (writeMem_looksUp c _ _ _).bind fun _ _ => .of_frame (frame_autoIncrement ..)

theorem pstD_looksUp : LooksUp c (finalState (pstD i c)) := by
  unfold pstD
  rw [Exec.bind_apply, Exec.get_apply]
  exact (writeMasked_looksUp c _ _ _).bind fun _ _ => .of_frame (frame_autoIncrement ..)

theorem guarded_looksUp (refused : Bool) {compute : Cpu β → Cpu β}
    (h : (compute c).frame = c.frame) :
    LooksUp c (finalState (guarded refused compute c)) := by
  unfold guarded
  rw [Exec.ite_apply]
  split
  · exact .raise .instruction
  · exact .of_frame h

theorem intovr_looksUp : LooksUp c (finalState (intovr c)) := by
  unfold intovr
  rw [Exec.bind_apply, Exec.get_apply]
  dsimp only
  rw [Exec.ite_apply]
  split
  · exact .raise .instruction
  · exact .of_frame rfl

theorem reciprocal_looksUp (root : Bool) : LooksUp c (finalState (reciprocal root i c)) := by
  unfold reciprocal
  rw [Exec.ite_apply]
  split
  · exact .raise .instruction
  · rw [Exec.bind_apply, Exec.get_apply]
    dsimp only
    rw [Exec.ite_apply]
    split
    · exact .of_kept ⟨rfl, rfl, rfl, rfl⟩
    · exact .of_frame (Cpu.frame_writeSlot ..)

theorem ldC_looksUp : LooksUp c (ldC i c) := by
  have hread : ∀ reg, BuffersKept c (c.readControl reg).2 := by
    intro reg
    cases reg with
    | fir =>
        dsimp only [Cpu.readControl]
        split <;> exact ⟨rfl, rfl, rfl, rfl⟩
    | _ => exact .refl c
  unfold ldC
  split
  · exact .of_frame rfl
  · next reg _ => exact .tail (.of_kept (hread reg)) (.of_frame (Cpu.frame_writeInt ..))

theorem branchIf_looksUp (taken : Bool) (target : Word) :
    LooksUp c (branchIf taken target c) := by
  unfold branchIf
  split <;> exact .of_kept ⟨rfl, rfl, rfl, rfl⟩

end Routines

/-- What an instruction or a write of a control register does to the buffers. -/
inductive Attends (c d : Cpu β) : Prop
  | looksUp (h : LooksUp c d)
  | empties (h : ∀ tag pair, ¬d.icache.Keeps tag pair)

theorem writeControl_attends (c : Cpu β) (reg : ControlReg) (v : Word) :
    Attends c (c.writeControl reg v) := by
  have hdirbase : Attends c (c.writeDirbase (.ofBits v)) := by
    unfold Cpu.writeDirbase
    dsimp only
    split
    · exact .empties c.icache.not_keeps_invalidate
    · split
      · exact .empties c.icache.not_keeps_invalidate
      · next hsame =>
          simp only [Bool.or_eq_true, bne_iff_ne, ne_eq, not_or, Decidable.not_not] at hsame
          exact .looksUp (.of_kept ⟨hsame.1, hsame.2, rfl, rfl⟩)
  cases reg with
  | dirbase => exact hdirbase
  | _ => exact .looksUp (.of_kept ⟨rfl, rfl, rfl, rfl⟩)

theorem stC_attends (c : Cpu β) (i : Instruction) : Attends c (Execute.stC i c) := by
  unfold Execute.stC
  split
  · exact .looksUp (.of_frame rfl)
  · exact writeControl_attends c _ _

/-- What an instruction does to the buffers that is no delayed branch, whether
it completes or not. -/
theorem execute_attends (i : Instruction) (slot : Exec β Unit)
    (straight : i.op.isDelayedBranch = false) (c : Cpu β) :
    Attends c (finalState (execute slot i c)) := by
  unfold execute
  cases hop : i.op <;> dsimp only
  case bri | calli | br | call | bcT | bncT | bla =>
    simp [hop, Op.isDelayedBranch] at straight
  case stC => exact stC_attends c i
  all_goals apply Attends.looksUp
  case illegal | trap => exact .raise .instruction
  case lock | unlock => exact .of_frame rfl
  case intovr => exact intovr_looksUp c
  case ldInt => exact ldInt_looksUp c i
  case stInt => exact stInt_looksUp c i
  case fld => exact fld_looksUp c i
  case pfld => exact pfld_looksUp c i
  case fst => exact fst_looksUp c i
  case pstD => exact pstD_looksUp c i
  case ldC => exact ldC_looksUp c i
  case bc | bnc | bte | btne => exact branchIf_looksUp c _ _
  case frcp | frsqr => exact reciprocal_looksUp c i _
  case fmul | pfmul3 | fadd | fsub => exact guarded_looksUp c _ (Execute.frame_binary ..)
  case fmlow => exact guarded_looksUp c _ (Cpu.frame_setFloats ..)
  case famov => exact guarded_looksUp c _ (Execute.frame_issue ..)
  case dualOp =>
    refine guarded_looksUp c _ ?_
    rw [Execute.frame_advance, Execute.frame_setPrecision, Execute.frame_advance,
      Execute.frame_setPrecision, Cpu.frame_writeSlot]
    rfl
  -- The rest only compute.
  all_goals exact .of_frame (by simp [finalState])

/-! ## Fetches -/

/-- The pair of instructions in memory at an address. -/
def pairAt (board : β) (paddr : PhysAddr) : Double :=
  (Bus.load .little board paddr .double).setWidth 64

section Fetch

variable {c : Cpu β} {pc : VirtAddr}

theorem fetch_of_hit {pair : Double} (h : c.icache.peek pc = some pair) :
    fetch pc c =
      .ok (wordOfPair pc pair)
        { c with icache := { c.icache with hits := c.icache.hits + 1 } } := by
  have hlookup : c.icache.lookup pc =
      (some pair, { c.icache with hits := c.icache.hits + 1 }) := by
    rw [InstructionCache.lookup, h]
  unfold fetch
  rw [Exec.bind_apply, Exec.get_apply]
  dsimp only
  rw [hlookup]
  rfl

/-- The state in which a pair is fetched that the cache does not have. -/
def Cpu.missed (c : Cpu β) : Cpu β :=
  { c with icache := { c.icache with misses := c.icache.misses + 1 } }

theorem fetch_of_miss (h : c.icache.peek pc = none) :
    fetch pc c =
      match c.mmu.translate c.order c.board c.control.dirbase (InstructionCache.pairAddr pc)
        .fetch c.privilege with
      | (.ok paddr, mmu, board) =>
          .ok (wordOfPair pc (pairAt board paddr))
            { c.missed with
              mmu := mmu
              board := board
              icache := c.missed.icache.fill pc (pairAt board paddr) }
      | (.error kind, mmu, board) => raise kind { c.missed with mmu := mmu, board := board } := by
  have hlookup : c.icache.lookup pc = (none, c.missed.icache) := by
    rw [InstructionCache.lookup, h]
    rfl
  unfold fetch
  rw [Exec.bind_apply, Exec.get_apply]
  dsimp only
  rw [hlookup]
  show (fetchPair pc >>= fun pair => pure (wordOfPair pc pair)) c.missed = _
  unfold fetchPair
  rw [Exec.bind_apply, Exec.bind_apply, translate_apply]
  have hsame : c.missed.mmu.translate c.missed.order c.missed.board c.missed.control.dirbase
      (InstructionCache.pairAddr pc) .fetch c.missed.privilege =
      c.mmu.translate c.order c.board c.control.dirbase (InstructionCache.pairAddr pc) .fetch
        c.privilege := rfl
  rw [hsame]
  generalize c.mmu.translate c.order c.board c.control.dirbase (InstructionCache.pairAddr pc)
    .fetch c.privilege = r
  obtain ⟨result, mmu, board⟩ := r
  cases result with
  | ok paddr => rfl
  | error kind => rfl

end Fetch

/-! ## Acts -/

/-- The cache gets a line, for which the address of the pair was translated and
the pair read from memory. -/
def Fills (c d : Cpu β) (tag : VirtAddr) (pair : Double) : Prop :=
  ∃ paddr, c.mmu.translate c.order c.board c.control.dirbase tag .fetch c.privilege =
      (.ok paddr, d.mmu, d.board) ∧
    pairAt d.board paddr = pair ∧ d.order = c.order

/-- What both buffers keep is what they kept, or has been looked up. -/
structure Upkeep (c d : Cpu β) : Prop extends Consults c d where
  lines : ∀ tag pair, d.icache.Keeps tag pair →
    c.icache.Keeps tag pair ∨ Fills c d tag pair

theorem LooksUp.upkeep {c d : Cpu β} (h : LooksUp c d) : Upkeep c d :=
  ⟨h.toConsults, fun _ _ hkeeps => .inl (h.lines ▸ hkeeps)⟩

theorem fetch_upkeep (pc : VirtAddr) (c : Cpu β) : Upkeep c (finalState (fetch pc c)) := by
  cases hpeek : c.icache.peek pc with
  | some pair =>
      rw [fetch_of_hit hpeek]
      exact LooksUp.upkeep (.of_kept ⟨rfl, rfl, rfl, rfl⟩)
  | none =>
      have hmappings : ∀ vaddr t,
          (c.mmu.translate c.order c.board c.control.dirbase (InstructionCache.pairAddr pc)
            .fetch c.privilege).2.1.tlb.Keeps vaddr.pageNumber t →
          c.mmu.tlb.Keeps vaddr.pageNumber t ∨ t = (c.pathOf vaddr).mapping :=
        fun _ _ h => (Mmu.kept_or_translated h).imp_right fun hnew => hnew.2.2
      rw [fetch_of_miss hpeek]
      split
      · next paddr mmu board htranslated =>
          rw [htranslated] at hmappings
          refine ⟨⟨rfl, rfl, hmappings⟩, fun tag pair hkeeps => ?_⟩
          obtain ⟨rfl, rfl⟩ | hkept := InstructionCache.keeps_of_fill hkeeps
          · exact .inr ⟨paddr, htranslated, rfl, rfl⟩
          · exact .inl hkept
      · next kind mmu board htranslated =>
          rw [htranslated] at hmappings
          exact ⟨⟨rfl, rfl, hmappings⟩, fun _ _ hkeeps => .inl hkeeps⟩

/-- The least that a processor, or the host with it, does at a time. -/
inductive Act (c : Cpu β) : Cpu β → Prop
  | interlude {d : Cpu β} (h : Interlude c d) : Act c d
  | execute {slot : Exec β Unit} {i : Instruction} {d : Cpu β}
      (straight : i.op.isDelayedBranch = false) (ran : execute slot i c = .ok () d) : Act c d
  | host {d : Cpu β} (h : HostAction c d) : Act c d
  | reset : Act c c.reset

theorem Attends.upkeep {c d : Cpu β} (h : Attends c d) :
    Upkeep c d ∨ ∀ tag pair, ¬d.icache.Keeps tag pair := by
  cases h with
  | looksUp h => exact .inl h.upkeep
  | empties h => exact .inr h

/-- What an act does to the buffers. -/
theorem Act.upkeep {c d : Cpu β} (h : Act c d) :
    Upkeep c d ∨ ∀ tag pair, ¬d.icache.Keeps tag pair := by
  have hkept : ∀ {d : Cpu β}, BuffersKept c d →
      Upkeep c d ∨ ∀ tag pair, ¬d.icache.Keeps tag pair :=
    fun h => .inl (LooksUp.of_kept h).upkeep
  cases h with
  | interlude h =>
      cases h with
      | fetch pc => exact .inl (fetch_upkeep pc c)
      | @refuse slot i _ _ hstraight hran =>
          have hattends := execute_attends i slot hstraight c
          rw [hran] at hattends
          exact hattends.upkeep
      | advanceDual =>
          unfold Cpu.advanceDual
          split <;> exact hkept ⟨rfl, rfl, rfl, rfl⟩
      | _ => exact hkept ⟨rfl, rfl, rfl, rfl⟩
  | @execute slot i _ hstraight hran =>
      have hattends := execute_attends i slot hstraight c
      rw [hran] at hattends
      exact hattends.upkeep
  | host h =>
      cases h with
      | outside h => cases h <;> exact hkept ⟨rfl, rfl, rfl, rfl⟩
      | writeControl reg v => exact (writeControl_attends c reg v).upkeep
      | inspectInstruction pc =>
          obtain ⟨psr, heq⟩ := c.inspectInstruction_state pc
          rw [heq]
          exact .inl { fetch_upkeep pc c with }
      | withFloatUnit u => exact hkept ⟨rfl, rfl, rfl, rfl⟩
  | reset =>
      refine .inr fun tag pair hkeeps => ?_
      have hinvalidated : c.reset.icache = c.icache.invalidate := by
        unfold Cpu.reset
        rfl
      rw [hinvalidated] at hkeeps
      exact c.icache.not_keeps_invalidate tag pair hkeeps

/-- All that happens on a course is acts. -/
theorem Course.acts {c d : Cpu β} {log : List (Executed β)} (h : Course c log d) :
    Relation.ReflTransGen Act c d := by
  induction h with
  | stop c => exact .refl
  | interlude hfirst _ ih => exact .head (.interlude hfirst) ih
  | executed hstraight hran _ ih => exact .head (.execute hstraight hran) ih

end I860
