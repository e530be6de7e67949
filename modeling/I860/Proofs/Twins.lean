import I860.Proofs.Deeds
import I860.Proofs.Footprints

/-!
# Processors that differ in their buffers

Two processors with buffers of different sizes miss in them at different times.
One then walks the tables, or reads a pair, where the other has it at hand. Both
do what a processor without any buffers would do (`Cpu.plainly`), as long as
both are sound for the same footprint, and so they go on agreeing in all but the
buffers: they are `Twins`. What they share decides whether a touch of memory is
orderly, so it is enough to ask this of one of them.

Fetches, checks of addresses, stores and writes of control registers are the
touches. A deed of an instruction makes at most two of them (`touchesOf`), and
whatever happens between two touches is `Passive`.
-/

namespace I860

variable {β α : Type}

/-! ## Two runs -/

/-- Two runs end in the same way, in states that are related. -/
inductive SameEnd (R : Cpu β → Cpu β → Prop) :
    EStateM.Result Fault (Cpu β) α → EStateM.Result Fault (Cpu β) α → Prop
  | ok (a : α) {c d : Cpu β} (related : R c d) : SameEnd R (.ok a c) (.ok a d)
  | error (e : Fault) {c d : Cpu β} (related : R c d) : SameEnd R (.error e c) (.error e d)

namespace SameEnd

variable {r r' : EStateM.Result Fault (Cpu β) α} {R S : Cpu β → Cpu β → Prop}

theorem final (h : SameEnd R r r') : R (finalState r) (finalState r') := by
  cases h with
  | ok _ hrelated => exact hrelated
  | error _ hrelated => exact hrelated

theorem ranThrough_eq (h : SameEnd R r r') : ranThrough r' = ranThrough r := by
  cases h <;> rfl

theorem imp (h : SameEnd R r r') (hfinal : S (finalState r) (finalState r')) :
    SameEnd S r r' := by
  cases h with
  | ok a => exact .ok a hfinal
  | error e => exact .error e hfinal

end SameEnd

/-! ## Processors that differ in their buffers -/

/-- The processor with what the buffers of another hold, with their hits and
misses, and with its board. How often they were emptied does not come along. -/
def Cpu.beside (c d : Cpu β) : Cpu β :=
  { c with
    mmu := { d.mmu with flushes := c.mmu.flushes }
    icache := { d.icache with invalidations := c.icache.invalidations }
    board := d.board }

/-- A routine that has nothing to do with the buffers or the board. -/
structure Passive (g : Cpu β → Cpu β) : Prop where
  beside : ∀ c d, g (c.beside d) = (g c).beside d
  order : ∀ c, (g c).order = c.order
  dirbase : ∀ c, (g c).control.dirbase = c.control.dirbase

namespace Passive

variable {g : Cpu β → Cpu β}

/-- What a passive routine leaves alone. -/
theorem eq_beside (hg : Passive g) (c : Cpu β) : g c = (g c).beside c :=
  calc
    g c = g (c.beside c) := rfl
    _ = (g c).beside c := hg.beside c c

end Passive

theorem Computes.passive {f : Cpu β → Cpu β} (h : Computes f) : Passive f where
  beside c d :=
    calc
      f (c.beside d) = (f c).within (c.beside d).surroundings :=
        h.within c (c.beside d).surroundings
      _ = (f c).within (((f c).within c.surroundings).beside d).surroundings := rfl
      _ = (f c).within ((f c).beside d).surroundings := by
        rw [← h.surroundings_eq c, Cpu.within_surroundings]
      _ = (f c).beside d := rfl
  order := h.order
  dirbase := h.dirbase

variable [Bus β]

/-- Two processors differ at most in their buffers: each byte of their boards is
the same. -/
structure Alike (c d : Cpu β) : Prop where
  rest : d = c.beside d
  board : SameBytes c.board d.board

namespace Alike

variable {c d e : Cpu β}

theorem refl (c : Cpu β) : Alike c c := ⟨rfl, .refl _⟩

theorem symm (h : Alike c d) : Alike d c := by
  refine ⟨?_, h.board.symm⟩
  rw [h.rest]
  rfl

theorem trans (h : Alike c d) (h' : Alike d e) : Alike c e := by
  refine ⟨?_, h.board.trans h'.board⟩
  rw [h'.rest, h.rest]
  rfl

theorem map (h : Alike c d) {g : Cpu β → Cpu β} (hg : Passive g) : Alike (g c) (g d) := by
  have hboard : ∀ m, (g m).board = m.board := fun m => congrArg (·.board) (hg.eq_beside m)
  refine ⟨?_, ?_⟩
  · calc
      g d = g (c.beside d) := by rw [← h.rest]
      _ = (g c).beside d := hg.beside c d
      _ = (g c).beside ((g d).beside d) := rfl
      _ = (g c).beside (g d) := by rw [← hg.eq_beside]
  · rw [hboard, hboard]
    exact h.board

theorem control (h : Alike c d) : d.control = c.control := by
  rw [h.rest]
  rfl

theorem order (h : Alike c d) : d.order = c.order := by
  rw [h.rest]
  rfl

theorem pc (h : Alike c d) : d.pc = c.pc := by
  rw [h.rest]
  rfl

theorem flags (h : Alike c d) : d.flags = c.flags := by
  rw [h.rest]
  rfl

theorem raise (h : Alike c d) (kind : TrapKind) :
    SameEnd Alike ((raise kind : Exec β α) c) ((raise kind : Exec β α) d) := by
  rw [h.rest]
  exact .error _ ⟨rfl, h.board⟩

end Alike

namespace SameEnd

variable {r r' r'' : EStateM.Result Fault (Cpu β) α}

theorem symm (h : SameEnd Alike r r') : SameEnd Alike r' r := by
  cases h with
  | ok a halike => exact .ok a halike.symm
  | error e halike => exact .error e halike.symm

theorem trans (h : SameEnd Alike r r') (h' : SameEnd Alike r' r'') : SameEnd Alike r r'' := by
  cases h with
  | ok a halike =>
      cases h' with
      | ok _ halike' => exact .ok a (halike.trans halike')
  | error e halike =>
      cases h' with
      | error _ halike' => exact .error e (halike.trans halike')

end SameEnd

namespace Alike

variable {c d : Cpu β} [PlainMemory β]

theorem pathOf (h : Alike c d) (a : VirtAddr) : d.pathOf a = c.pathOf a := by
  rw [Cpu.pathOf, Cpu.pathOf, h.control, h.order, h.board.path]

theorem place (h : Alike c d) (a : VirtAddr) : d.place a = c.place a := by
  rw [Cpu.place, Cpu.place, h.control, h.pathOf]

end Alike

/-! ## What the tables alone would do -/

/-- What a walk makes of an address, if addresses are translated at all. -/
def Cpu.walked (c : Cpu β) (vaddr : VirtAddr) (access : AccessKind) :
    Except TrapKind PhysAddr × β :=
  if c.control.dirbase.ate then
    let (result, board) := walk c.order c.board c.control.dirbase.dtb vaddr access c.privilege
    (result.map (·.address vaddr), board)
  else (.ok vaddr, c.board)

/-- Turns to memory at an address, without any buffers. -/
def Cpu.plainly (c : Cpu β) (vaddr : VirtAddr) (access : AccessKind)
    (answer : PhysAddr → β → α) : EStateM.Result Fault (Cpu β) α :=
  match c.walked vaddr access with
  | (.ok paddr, board) => .ok (answer paddr board) { c with board := board }
  | (.error kind, board) => raise kind { c with board := board }

section Memory

variable [PlainMemory β] {f : Footprint} {c d : Cpu β} {vaddr : VirtAddr} {access : AccessKind}

theorem Alike.walked (h : Alike c d) (vaddr : VirtAddr) (access : AccessKind) :
    (d.walked vaddr access).1 = (c.walked vaddr access).1 ∧
      SameBytes (c.walked vaddr access).2 (d.walked vaddr access).2 := by
  unfold Cpu.walked Cpu.privilege
  rw [h.control, h.order]
  split
  · obtain ⟨hresult, hboard⟩ := h.board.walk c.order c.control.dirbase.dtb vaddr access
      ⟨c.control.psr.u, c.control.epsr.wp⟩
    dsimp only
    rw [hresult]
    exact ⟨rfl, hboard⟩
  · exact ⟨rfl, h.board⟩

theorem Alike.plainly (h : Alike c d) (vaddr : VirtAddr) (access : AccessKind)
    {answer : PhysAddr → β → α}
    (hanswer : ∀ paddr board board', SameBytes board board' →
      answer paddr board' = answer paddr board) :
    SameEnd Alike (c.plainly vaddr access answer) (d.plainly vaddr access answer) := by
  obtain ⟨hresult, hboard⟩ := h.walked vaddr access
  unfold Cpu.plainly
  generalize c.walked vaddr access = w at hresult hboard
  generalize d.walked vaddr access = w' at hresult hboard
  obtain ⟨result, board⟩ := w
  obtain ⟨result', board'⟩ := w'
  dsimp only at hresult hboard
  subst hresult
  have halike : Alike { c with board := board } { d with board := board' } := by
    refine ⟨?_, hboard⟩
    rw [h.rest]
    rfl
  cases result' with
  | ok paddr =>
      dsimp only
      rw [hanswer paddr board board' hboard]
      exact .ok _ halike
  | error kind => exact halike.raise kind

omit [PlainMemory β] in
theorem Mmu.flushes_translate (m : Mmu) (order : ByteOrder) (board : β) (dirbase : Dirbase)
    (vaddr : VirtAddr) (access : AccessKind) (who : Privilege) :
    (m.translate order board dirbase vaddr access who).2.1.flushes = m.flushes := by
  have hwalk : (m.translateByWalk order board dirbase.dtb vaddr access who).2.1.flushes =
      m.flushes := by
    unfold translateByWalk
    dsimp only
    split <;> rfl
  obtain ⟨_, h, -⟩ | ⟨_, h⟩ | h := m.translate_cases order board dirbase vaddr access who
  · rw [h]
  · rw [h]
  · rw [h, hwalk]

omit [PlainMemory β] in
/-- What is kept of a translation, or of a fetch, makes no difference. -/
theorem alike_translating (c : Cpu β) {board : β} {icache : InstructionCache}
    (hboard : SameBytes board (c.translating vaddr access).board)
    (hcount : icache.invalidations = c.icache.invalidations) :
    Alike { c.translating vaddr access with icache := icache } { c with board := board } := by
  have hflushes : (c.translating vaddr access).mmu.flushes = c.mmu.flushes :=
    c.mmu.flushes_translate ..
  refine ⟨?_, hboard.symm⟩
  unfold Cpu.beside
  dsimp only
  rw [hflushes, hcount]
  rfl

namespace Sound

theorem translated_eq (h : Sound f c) (vaddr : VirtAddr) (access : AccessKind) :
    (c.translated vaddr access).1 = (c.walked vaddr access).1 ∧
      SameBytes (c.walked vaddr access).2 (c.translated vaddr access).2.2 := by
  unfold Cpu.walked Cpu.translated
  cases hate : c.control.dirbase.ate with
  | false =>
      simp only [Mmu.translate, hate, Bool.not_false, if_true, Bool.false_eq_true, if_false]
      exact ⟨trivial, .refl _⟩
  | true => exact translate_eq_walk hate (h.pageAgrees hate vaddr) access c.privilege

/-- A translation does what a walk would do. -/
theorem translate_plainly (h : Sound f c) :
    SameEnd Alike (translate vaddr access c) (c.plainly vaddr access fun paddr _ => paddr) := by
  obtain ⟨hresult, hboard⟩ := h.translated_eq vaddr access
  rw [translate_eq]
  unfold Cpu.plainly
  generalize c.walked vaddr access = w at hresult hboard
  obtain ⟨result, board⟩ := w
  dsimp only at hresult hboard
  rw [hresult]
  have halike : Alike (c.translating vaddr access) { c with board := board } :=
    alike_translating c hboard rfl
  cases result with
  | ok paddr => exact .ok paddr halike
  | error kind => exact halike.raise kind

/-- Supervisor mode is barred from no page, so a fetch gives what memory has. -/
theorem fetch_plainly (h : Sound f c) (hsupervisor : c.control.psr.u = false) {pc : VirtAddr} :
    SameEnd Alike (I860.fetch pc c) (c.plainly (InstructionCache.pairAddr pc) .fetch
      fun paddr board => wordOfPair pc (pairAt board paddr)) := by
  cases hpeek : c.icache.peek pc with
  | some pair =>
      rw [fetch_of_hit hpeek]
      rw [InstructionCache.peek_eq_some_iff] at hpeek
      obtain ⟨hfetched, hpair⟩ := h.lines _ pair hpeek
      unfold Cpu.plainly Cpu.walked
      unfold Cpu.place at hpair
      cases hate : c.control.dirbase.ate with
      | false =>
          rw [hate] at hpair
          rw [← hpair]
          exact .ok _ ⟨rfl, .refl _⟩
      | true =>
          rw [hate, if_pos rfl] at hpair
          have hused := h.used hate _ (h.pairs hate _ hfetched)
          have hgrants : (c.pathOf (InstructionCache.pairAddr pc)).mapping.grants .fetch
              c.privilege = true := by
            rw [PageMapping.grants_fetch, Cpu.privilege, hsupervisor]
            rfl
          obtain ⟨hresult, hsame⟩ := hused.walk_of_granted hgrants rfl
          rw [if_pos rfl]
          generalize I860.walk c.order c.board c.control.dirbase.dtb
            (InstructionCache.pairAddr pc) .fetch c.privilege = w at hresult hsame
          obtain ⟨result, board⟩ := w
          dsimp only at hresult hsame ⊢
          rw [hresult, ← hpair, ← pairAt_congr hsame]
          exact .ok _ ⟨rfl, hsame⟩
  | none =>
      obtain ⟨hresult, hboard⟩ := h.translated_eq (InstructionCache.pairAddr pc) .fetch
      rw [fetch_of_miss_eq hpeek]
      unfold Cpu.plainly
      generalize c.walked (InstructionCache.pairAddr pc) .fetch = w at hresult hboard
      obtain ⟨result, board⟩ := w
      dsimp only at hresult hboard ⊢
      rw [hresult]
      cases result with
      | ok paddr =>
          have hpair : pairAt (c.translating (InstructionCache.pairAddr pc) .fetch).board paddr =
              pairAt board paddr := pairAt_congr hboard paddr
          dsimp only
          rw [hpair]
          exact .ok _ (alike_translating c hboard rfl)
      | error kind =>
          refine Alike.raise ?_ kind
          exact alike_translating c hboard rfl

end Sound

/-! ## Twins -/

omit [PlainMemory β] in
theorem Sound.map (h : Sound f c) {g : Cpu β → Cpu β} (hg : Passive g) : Sound f (g c) := by
  have hkept := hg.eq_beside c
  have hdirbase := hg.dirbase c
  refine h.idle (hg.order c) (by rw [hdirbase]) (by rw [hdirbase]) ?_ (fun tag pair hkeeps => ?_) ?_
  · rw [hkept]
    rfl
  · rw [hkept] at hkeeps
    exact hkeeps
  · rw [hkept]
    rfl

/-- Two sound processors that differ at most in their buffers. -/
structure Twins (f : Footprint) (c d : Cpu β) : Prop extends Alike c d where
  left : Sound f c
  right : Sound f d

/-- The same touch of two processors. -/
structure SameTouch (t t' : Touch β) : Prop where
  before : Alike t.before t'.before
  after : Alike t.after t'.after
  pair : t'.pair? = t.pair?
  addr : t'.addr? = t.addr?
  invalidates : t'.invalidates = t.invalidates

namespace SameTouch

variable {t t' : Touch β}

theorem orderly (h : SameTouch t t') (ho : t.Orderly f) : t'.Orderly f where
  supervisor := by rw [h.before.control, ho.supervisor]
  byteOrder := by rw [h.before.control, h.after.control, ho.byteOrder]
  directory := by
    rw [h.invalidates, h.before.control, h.after.control]
    exact ho.directory
  pairs := by
    intro hkeeping tag htag
    rw [h.invalidates] at hkeeping
    rw [h.before.place, pairAt_congr h.before.board, pairAt_congr h.after.board]
    exact ho.pairs hkeeping tag htag
  tables := by
    intro hkeeping hate a ha
    rw [h.invalidates] at hkeeping
    rw [h.before.control] at hate
    rw [h.before.pathOf, h.after.pathOf]
    exact ho.tables hkeeping hate a ha

omit [PlainMemory β] in
theorem footprint_eq (h : SameTouch t t') (f : Footprint) : f.after t' = f.after t := by
  rw [Footprint.after, Footprint.after, h.pair, h.addr, h.invalidates]

theorem twins (h : SameTouch t t') (ho : t.Orderly f)
    (hleft : t.Orderly f → Sound (f.after t) t.after)
    (hright : t'.Orderly f → Sound (f.after t') t'.after) :
    Twins (f.after t) t.after t'.after := by
  have hsound := hright (h.orderly ho)
  rw [h.footprint_eq] at hsound
  exact ⟨h.after, hleft ho, hsound⟩

end SameTouch

namespace Twins

omit [PlainMemory β] in
theorem map (h : Twins f c d) {g : Cpu β → Cpu β} (hg : Passive g) : Twins f (g c) (g d) :=
  ⟨h.toAlike.map hg, h.left.map hg, h.right.map hg⟩

theorem fetch (h : Twins f c d) {pc : VirtAddr} (ho : (Touch.ofFetch pc c).Orderly f) :
    SameEnd (Twins (f.after (.ofFetch pc c))) (fetch pc c) (fetch pc d) := by
  have hsupervisor : d.control.psr.u = false := by
    rw [h.control]
    exact ho.supervisor
  have hanswer : ∀ (paddr : PhysAddr) (board board' : β), SameBytes board board' →
      wordOfPair pc (pairAt board' paddr) = wordOfPair pc (pairAt board paddr) :=
    fun paddr board board' hsame => by rw [pairAt_congr hsame]
  have hplain := h.toAlike.plainly (InstructionCache.pairAddr pc) .fetch hanswer
  have hsame : SameEnd Alike (I860.fetch pc c) (I860.fetch pc d) :=
    ((h.left.fetch_plainly ho.supervisor).trans hplain).trans
      (h.right.fetch_plainly hsupervisor).symm
  have htouch : SameTouch (Touch.ofFetch pc c) (Touch.ofFetch pc d) := by
    refine ⟨h.toAlike, hsame.final, ?_, ?_, rfl⟩
    · simp only [Touch.ofFetch, hsame.ranThrough_eq]
    · simp only [Touch.ofFetch, hsame.ranThrough_eq, h.control]
  exact hsame.imp (htouch.twins ho h.left.fetch h.right.fetch)

theorem check (h : Twins f c d) {width : Width}
    (ho : (Touch.ofAccess vaddr width access c).Orderly f) :
    SameEnd (Twins (f.after (.ofAccess vaddr width access c))) (checkData vaddr width access c)
      (checkData vaddr width access d) := by
  have hsame : SameEnd Alike (checkData vaddr width access c)
      (checkData vaddr width access d) := by
    have hrefuses : d.refusesData vaddr width access = c.refusesData vaddr width access := by
      rw [h.rest]
      rfl
    rw [checkData_eq, checkData_eq, hrefuses]
    split
    · exact h.raise .dataAccess
    · have hanswer : ∀ (paddr : PhysAddr) (board board' : β), SameBytes board board' →
          paddr = paddr := fun _ _ _ _ => rfl
      have hplain := h.toAlike.plainly vaddr access hanswer
      exact (h.left.translate_plainly.trans hplain).trans h.right.translate_plainly.symm
  have htouch : SameTouch (Touch.ofAccess vaddr width access c)
      (Touch.ofAccess vaddr width access d) := by
    refine ⟨h.toAlike, hsame.final, rfl, ?_, rfl⟩
    simp only [Touch.ofAccess, hsame.ranThrough_eq, h.control]
  exact hsame.imp (htouch.twins ho h.left.access h.right.access)

end Twins

/-! ## Instructions -/

/-- How an instruction touches memory that is no delayed branch, from what it
accesses and the state behind it. -/
def touchesOf (access? : Option (VirtAddr × Width × AccessKind))
    (write? : Option (ControlReg × Word)) (c after : Cpu β) : List (Touch β) :=
  match access? with
  | some (vaddr, width, access) =>
      .ofAccess vaddr width access c ::
        match access, checkData vaddr width access c with
        | .write, .ok _ m => [.ofStore m after]
        | _, _ => []
  | none =>
      match write? with
      | some (reg, v) => [.ofControl reg v c]
      | none => []

omit [PlainMemory β] in
theorem Deed.load_apply (vaddr : VirtAddr) (width : Width) (g : Quad → Cpu β → Cpu β)
    (c : Cpu β) :
    (Deed.load vaddr width g).run c =
      match checkData vaddr width .read c with
      | .ok paddr m => .ok () (g (Bus.load m.order m.board paddr width) m)
      | .error e m => .error e m := by
  rw [Deed.run, Exec.bind_apply, readMem, Exec.bind_apply]
  cases checkData vaddr width .read c <;> rfl

omit [PlainMemory β] in
theorem Deed.store_apply (vaddr : VirtAddr) (deposit : Deposit) (g : Cpu β → Cpu β)
    (c : Cpu β) :
    (Deed.store vaddr deposit g).run c =
      match checkData vaddr deposit.width .write c with
      | .ok paddr m => .ok () (g (m.deposit paddr deposit))
      | .error e m => .error e m := by
  rw [Deed.run, Exec.bind_apply]
  cases checkData vaddr deposit.width .write c <;> rfl

theorem Alike.deposit (h : Alike c d) (paddr : PhysAddr) (deposit : Deposit) :
    Alike (c.deposit paddr deposit) (d.deposit paddr deposit) := by
  refine ⟨?_, ?_⟩
  · rw [h.rest]
    rfl
  · unfold Cpu.deposit
    rw [h.order]
    cases deposit with
    | operand width value => exact h.board.store c.order paddr width value
    | selected value mask =>
        dsimp only [Deposit.put]
        split
        · exact h.board.store c.order paddr .double _
        · exact h.board.storeSelected c.order paddr value mask

omit [PlainMemory β] in
theorem Alike.writeControl (h : Alike c d) (reg : ControlReg) (v : Word) :
    Alike (c.writeControl reg v) (d.writeControl reg v) := by
  cases reg with
  | dirbase =>
      have hcontrol := h.control
      dsimp only [Cpu.writeControl, Cpu.writeDirbase]
      rw [hcontrol]
      split
      · exact ⟨by rw [h.rest]; rfl, h.board⟩
      · split <;> exact ⟨by rw [h.rest]; rfl, h.board⟩
  | _ => exact ⟨by rw [h.rest]; rfl, h.board⟩

theorem Twins.deed (h : Twins f c d) {deed : Deed β} (honest : deed.Honest)
    (ho : OrderlyAll f (touchesOf deed.access? deed.controlWrite? c (finalState (deed.run c)))) :
    SameEnd (Twins (f.afterAll (touchesOf deed.access? deed.controlWrite? c
      (finalState (deed.run c))))) (deed.run c) (deed.run d) := by
  cases deed with
  | refuse kind note =>
      have hnoted := h.map honest.passive
      have hraise : Passive fun m : Cpu β => m.setPsr (m.control.psr.setTrap kind) :=
        ⟨fun _ _ => rfl, fun _ => rfl, fun _ => rfl⟩
      exact .error _ (hnoted.map hraise)
  | compute g => exact .ok () (h.map honest.passive)
  | load vaddr width g =>
      have hchecked := h.check ho.1
      rw [Deed.load_apply, Deed.load_apply]
      show SameEnd (Twins (f.after (.ofAccess vaddr width .read c))) _ _
      generalize checkData vaddr width .read c = r at hchecked
      generalize checkData vaddr width .read d = r' at hchecked
      cases hchecked with
      | @ok paddr m n hmn =>
          have hload := hmn.board.load m.order paddr width
          dsimp only
          rw [hmn.order, hload]
          exact .ok () (hmn.map (honest _).passive)
      | error e hmn => exact .error e hmn
  | store vaddr deposit g =>
      have hchecked := h.check ho.1
      have hstored := ho.2
      rw [Deed.store_apply, Deed.store_apply]
      rw [Deed.store_apply] at hstored
      dsimp only [Deed.access?, touchesOf] at hchecked hstored ⊢
      generalize checkData vaddr deposit.width .write c = r at hchecked hstored
      generalize checkData vaddr deposit.width .write d = r' at hchecked
      cases hchecked with
      | @ok paddr m n hmn =>
          have hafter : Alike (g (m.deposit paddr deposit)) (g (n.deposit paddr deposit)) :=
            (hmn.toAlike.deposit paddr deposit).map honest.passive
          have htouch : SameTouch (Touch.ofStore m (g (m.deposit paddr deposit)))
              (Touch.ofStore n (g (n.deposit paddr deposit))) :=
            ⟨hmn.toAlike, hafter, rfl, rfl, rfl⟩
          have hkept : ∀ m : Cpu β, (g (m.deposit paddr deposit)).surroundings =
              (m.deposit paddr deposit).surroundings :=
            fun m => honest.surroundings_eq _
          have hstore : ∀ {m : Cpu β}, Sound (f.after (.ofAccess vaddr deposit.width .write c)) m →
              (Touch.ofStore m (g (m.deposit paddr deposit))).Orderly _ →
              Sound _ (g (m.deposit paddr deposit)) :=
            fun {m} hm ho => hm.store ho (honest.dirbase _) (congrArg (·.mmu) (hkept m))
              (congrArg (·.icache) (hkept m))
          exact .ok () (htouch.twins hstored.1 (hstore hmn.left) (hstore hmn.right))
      | error e hmn => exact .error e hmn
  | writeControl reg v =>
      have htouch : SameTouch (Touch.ofControl reg v c) (Touch.ofControl reg v d) :=
        ⟨h.toAlike, h.toAlike.writeControl reg v, rfl, rfl, rfl⟩
      exact .ok () (htouch.twins ho.1 h.left.writeControl h.right.writeControl)

/-- The touches of an instruction other than a delayed branch. -/
def Instruction.touches (i : Instruction) (slot : Exec β Unit) (c : Cpu β) : List (Touch β) :=
  touchesOf (i.access? c) (i.controlWrite? c) c (finalState (execute slot i c))

theorem Twins.instruction (h : Twins f c d) {slot : Exec β Unit} {i : Instruction}
    (straight : i.op.isDelayedBranch = false) (ho : OrderlyAll f (i.touches slot c)) :
    SameEnd (Twins (f.afterAll (i.touches slot c))) (execute slot i c) (execute slot i d) := by
  obtain ⟨deed, hdeed⟩ := execute_deed slot i c straight
  have hleft := hdeed.run c.surroundings
  have hright := hdeed.run d.surroundings
  have hwithin : c.within d.surroundings = d :=
    calc
      c.within d.surroundings = (c.beside d).within d.surroundings := rfl
      _ = d.within d.surroundings := by rw [← h.rest]
      _ = d := rfl
  rw [c.within_surroundings] at hleft
  rw [hwithin] at hright
  unfold Instruction.touches at ho ⊢
  rw [← hdeed.access, ← hdeed.controlWrite, hleft] at ho ⊢
  rw [hright]
  exact h.deed hdeed.honest ho

end Memory

end I860
