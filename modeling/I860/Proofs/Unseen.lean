import I860.Cpu.Report
import I860.Proofs.Deeds
import I860.Proofs.Lookups
import I860.Proofs.Moves

/-!
# What instructions do not see

A processor knows a few things that no instruction looks at: the level of the
interrupt pin, of which only the copy in the status register can be read, the
counts for telemetry, and the listing for dumps. `Cpu.seen` blanks them out. A
program is `Blind` if blanking them out before it is run makes no difference
to its result, nor to what can be seen of the state it ends in.

Programs in sequence are blind if each is. A routine that only computes does
not even touch what is blanked out, so it commutes with the blanking
(`Computes.seen`); only the lookups in the caches count, and there the counts
are gone again afterwards. So the deed of an instruction is blind, and from one
instruction it goes through the slots to runs by induction on their nesting
(`executeOne_blind`).
-/

namespace I860

variable {β α γ : Type}

namespace Cpu

/-- The processor as instructions see it. -/
def seen (c : Cpu β) : Cpu β := { c.clearCounts with irqLine := false, listing := none }

@[simp] theorem seen_seen (c : Cpu β) : c.seen.seen = c.seen := rfl

/-- The processor with the pin, the counts and the caches of another. -/
def countedAs (d c : Cpu β) : Cpu β :=
  { d with irqLine := c.irqLine, stats := c.stats, icache := c.icache, mmu := c.mmu }

theorem eq_of_seen {c d : Cpu β} (h : c.seen = d.seen) (hlisting : c.listing = d.listing) :
    c = d.countedAs c :=
  calc
    c = { c.seen.countedAs c with listing := c.listing } := rfl
    _ = { d.seen.countedAs c with listing := d.listing } := by rw [h, hlisting]
    _ = d.countedAs c := rfl

end Cpu

/-- The end of a run as instructions see it. -/
def asSeen : EStateM.Result Fault (Cpu β) α → EStateM.Result Fault (Cpu β) α
  | .ok a c => .ok a c.seen
  | .error e c => .error e c.seen

theorem asSeen_cases {r r' : EStateM.Result Fault (Cpu β) α} (h : asSeen r = asSeen r') :
    (∃ a d d', r = .ok a d ∧ r' = .ok a d' ∧ d.seen = d'.seen) ∨
      ∃ e d d', r = .error e d ∧ r' = .error e d' ∧ d.seen = d'.seen := by
  cases r with
  | ok a d =>
      cases r' with
      | ok a' d' =>
          obtain ⟨rfl, hd⟩ := EStateM.Result.ok.inj h
          exact .inl ⟨a, d, d', rfl, rfl, hd⟩
      | error e' d' => cases h
  | error e d =>
      cases r' with
      | ok a' d' => cases h
      | error e' d' =>
          obtain ⟨rfl, hd⟩ := EStateM.Result.error.inj h
          exact .inr ⟨e, d, d', rfl, rfl, hd⟩

/-- The program takes no notice of what is not seen. -/
def Blind (x : Exec β α) : Prop := ∀ c, asSeen (x c.seen) = asSeen (x c)

namespace Blind

variable {x : Exec β α}

/-- From states that look the same, a blind program ends in states that do. -/
theorem alike (h : Blind x) {c d : Cpu β} (hsame : c.seen = d.seen) :
    asSeen (x c) = asSeen (x d) := by
  rw [← h c, hsame, h d]

theorem bind {f : α → Exec β γ} (hx : Blind x) (hf : ∀ a, Blind (f a)) :
    Blind (x >>= f) := by
  intro c
  rw [Exec.bind_apply, Exec.bind_apply]
  obtain ⟨a, d, d', hseen, hran, hd⟩ | ⟨e, d, d', hseen, hran, hd⟩ := asSeen_cases (hx c)
  · rw [hseen, hran]
    exact (hf a).alike hd
  · rw [hseen, hran]
    exact congrArg (EStateM.Result.error e) hd

protected theorem pure (a : α) : Blind (pure a : Exec β α) := fun _ => rfl

protected theorem throw (e : Fault) : Blind (throw e : Exec β α) := fun _ => rfl

protected theorem raise (kind : TrapKind) : Blind (raise kind : Exec β α) := fun _ => rfl

protected theorem modify {f : Cpu β → Cpu β} (hf : ∀ c, (f c.seen).seen = (f c).seen) :
    Blind (modify f) :=
  fun c => congrArg (EStateM.Result.ok PUnit.unit) (hf c)

/-- Most programs that look at the state look at what is seen of it. -/
protected theorem get {f : Cpu β → Exec β α} (hf : ∀ c, f c.seen = f c)
    (h : ∀ c, Blind (f c)) : Blind (get >>= f) := by
  intro c
  rw [Exec.bind_apply, Exec.bind_apply, Exec.get_apply, Exec.get_apply]
  dsimp only
  rw [hf]
  exact h c c

protected theorem ite {p : Prop} [Decidable p] {y : Exec β α} (hx : Blind x) (hy : Blind y) :
    Blind (if p then x else y) := by
  split
  · exact hx
  · exact hy

end Blind

/-! ## Routines that only compute -/

theorem Computes.seen {f : Cpu β → Cpu β} (h : Computes f) (c : Cpu β) :
    f c.seen = (f c).seen := by
  have hblank : c.seen = c.within c.seen.surroundings := rfl
  have hleft : (f c).seen = (f c).within c.seen.surroundings := by
    have hsame := h.surroundings_eq c
    calc
      (f c).seen = (f c).within (f c).seen.surroundings := rfl
      _ = (f c).within ((f c).within c.surroundings).seen.surroundings := by
        rw [← hsame, Cpu.within_surroundings]
      _ = (f c).within c.seen.surroundings := rfl
  rw [hblank, h.within, hleft]

/-- A write to the directory base counts what it empties. -/
theorem Cpu.seen_writeControl (c : Cpu β) (reg : ControlReg) (v : Word) :
    (c.seen.writeControl reg v).seen = (c.writeControl reg v).seen := by
  cases reg with
  | dirbase =>
      have hdirbase : c.seen.control = c.control := rfl
      dsimp only [writeControl, writeDirbase]
      rw [hdirbase]
      split
      · rfl
      · split <;> rfl
  | _ => rfl

/-! ## Lookups -/

theorem Mmu.translate_clearCounts [Bus β] (m : Mmu) (order : ByteOrder) (board : β)
    (dirbase : Dirbase) (vaddr : VirtAddr) (access : AccessKind) (who : Privilege) :
    ∃ mmu, m.clearCounts.translate order board dirbase vaddr access who =
        ((m.translate order board dirbase vaddr access who).1, mmu,
          (m.translate order board dirbase vaddr access who).2.2) ∧
      mmu.clearCounts = (m.translate order board dirbase vaddr access who).2.1.clearCounts := by
  have hwalk : ∃ mmu,
      m.clearCounts.translateByWalk order board dirbase.dtb vaddr access who =
        ((m.translateByWalk order board dirbase.dtb vaddr access who).1, mmu,
          (m.translateByWalk order board dirbase.dtb vaddr access who).2.2) ∧
      mmu.clearCounts =
        (m.translateByWalk order board dirbase.dtb vaddr access who).2.1.clearCounts := by
    unfold translateByWalk
    dsimp only
    split
    · exact ⟨_, rfl, rfl⟩
    · exact ⟨_, rfl, rfl⟩
  have htlb : m.clearCounts.tlb = m.tlb := rfl
  unfold translate
  rw [htlb]
  split
  · exact ⟨_, rfl, rfl⟩
  · split
    · exact hwalk
    · split
      · exact ⟨_, rfl, rfl⟩
      · split
        · exact hwalk
        · exact ⟨_, rfl, rfl⟩

theorem InstructionCache.lookup_clearCounts (cache : InstructionCache) (pc : VirtAddr) :
    (cache.clearCounts.lookup pc).1 = (cache.lookup pc).1 ∧
      (cache.clearCounts.lookup pc).2.clearCounts = (cache.lookup pc).2.clearCounts := by
  have hpeek : cache.clearCounts.peek pc = cache.peek pc := rfl
  unfold lookup
  rw [hpeek]
  split <;> exact ⟨rfl, rfl⟩

section Lookups

variable [Bus β]

theorem translate_blind (vaddr : VirtAddr) (access : AccessKind) :
    Blind (translate (β := β) vaddr access) := by
  intro c
  obtain ⟨mmu, hseen, hmmu⟩ := Mmu.translate_clearCounts c.mmu c.order c.board
    c.control.dirbase vaddr access c.privilege
  have htranslate : c.seen.mmu.translate c.seen.order c.seen.board c.seen.control.dirbase
      vaddr access c.seen.privilege = _ := hseen
  rw [translate_apply, translate_apply, htranslate]
  generalize c.mmu.translate c.order c.board c.control.dirbase vaddr access c.privilege = r
    at hmmu
  obtain ⟨result, mmu', board⟩ := r
  have hstate : { c.seen with mmu := mmu, board := board }.seen =
      ({ c with mmu := mmu', board := board } : Cpu β).seen :=
    congrArg (fun counted => { c.seen with mmu := counted, board := board }) hmmu
  cases result with
  | ok paddr => exact congrArg (EStateM.Result.ok paddr) hstate
  | error kind => exact (Blind.raise kind).alike hstate

theorem checkData_blind (vaddr : VirtAddr) (width : Width) (access : AccessKind) :
    Blind (checkData (β := β) vaddr width access) :=
  .get (fun _ => rfl) fun _ => .ite (.raise _) (.ite (.raise _) (translate_blind vaddr access))

theorem readMem_blind (vaddr : VirtAddr) (width : Width) :
    Blind (readMem (β := β) vaddr width) :=
  (checkData_blind vaddr width .read).bind fun _ => .get (fun _ => rfl) fun _ => .pure _

theorem fetchPair_blind (pc : VirtAddr) : Blind (fetchPair (β := β) pc) :=
  (translate_blind _ .fetch).bind fun _ _ => rfl

theorem fetch_blind (pc : VirtAddr) : Blind (fetch (β := β) pc) := by
  intro c
  obtain ⟨hpair, hcounts⟩ := c.icache.lookup_clearCounts pc
  have hstate : { c.seen with icache := (c.icache.clearCounts.lookup pc).2 }.seen =
      ({ c with icache := (c.icache.lookup pc).2 } : Cpu β).seen :=
    congrArg (fun counted => { c.seen with icache := counted }) hcounts
  have hseen : c.seen.icache = c.icache.clearCounts := rfl
  unfold fetch
  rw [Exec.bind_apply, Exec.bind_apply, Exec.get_apply, Exec.get_apply]
  dsimp only
  rw [Exec.bind_apply, Exec.bind_apply, Exec.set_apply, Exec.set_apply]
  dsimp only
  rw [hseen, hpair]
  cases (c.icache.lookup pc).1 with
  | some pair => exact (Blind.pure _).alike hstate
  | none => exact ((fetchPair_blind pc).bind fun _ => .pure _).alike hstate

end Lookups

/-! ## Instructions -/

section Instructions

variable (i : Instruction)

theorem slotPlan?_seen (c : Cpu β) : slotPlan? i c.seen = slotPlan? i c := by
  unfold slotPlan?
  cases i.op <;> rfl

namespace SlotPlan

variable (p : SlotPlan) (c d : Cpu β)

theorem enter_seen : p.enter c.seen = (p.enter c).seen := by
  unfold enter
  split <;> rfl

theorem undo_seen : p.undo c.seen d.seen = (p.undo c d).seen := by
  unfold undo
  split <;> rfl

theorem leave_seen : p.leave d.seen = (p.leave d).seen := by
  obtain ⟨written, target, returns, loop⟩ := p
  cases returns <;> cases loop <;> rfl

/-- A branch takes no notice if its slot does not. -/
theorem run_blind {slot : Exec β Unit} (hslot : Blind slot) : Blind (p.run slot) := by
  intro c
  unfold run
  rw [p.enter_seen]
  obtain ⟨_, d, d', hseen, hran, hd⟩ | ⟨e, d, d', hseen, hran, hd⟩ :=
    asSeen_cases (hslot (p.enter c))
  · rw [hseen, hran]
    dsimp only [asSeen]
    rw [← p.leave_seen d, hd, p.leave_seen d']
  · rw [hseen, hran]
    dsimp only [asSeen]
    rw [← p.undo_seen c.seen d, hd, Cpu.seen_seen, p.undo_seen c d']

end SlotPlan

variable [Bus β]

theorem Deed.run_blind {deed : Deed β} (h : deed.Honest) : Blind deed.run := by
  have hmodify : ∀ {f : Cpu β → Cpu β}, Computes f → Blind (modify f) :=
    fun hf => .modify fun c => by rw [hf.seen, Cpu.seen_seen]
  cases deed with
  | refuse kind note => exact (hmodify h).bind fun _ => .raise kind
  | compute f => exact hmodify h
  | load vaddr width f => exact (readMem_blind vaddr width).bind fun v => hmodify (h v)
  | store vaddr deposit f =>
      refine (checkData_blind vaddr deposit.width .write).bind fun paddr => .modify fun c => ?_
      exact (congrArg Cpu.seen (h.seen (c.deposit paddr deposit))).trans (Cpu.seen_seen _)
  | writeControl reg v => exact .modify fun c => c.seen_writeControl reg v

/-- An instruction takes no notice if its slot does not. -/
theorem execute_blind {slot : Exec β Unit} (hslot : Blind slot) : Blind (execute slot i) := by
  intro c
  cases hbranch : i.op.isDelayedBranch with
  | true =>
      rw [execute_branch i _ slot hbranch, execute_branch i _ slot hbranch, slotPlan?_seen]
      cases slotPlan? i c with
      | none => rfl
      | some p => exact p.run_blind hslot c
  | false =>
      obtain ⟨deed, hdeed⟩ := execute_deed slot i c hbranch
      have hran := hdeed.run c.surroundings
      have hseen := hdeed.run c.seen.surroundings
      rw [c.within_surroundings] at hran
      change execute slot i c.seen = deed.run c.seen at hseen
      rw [hran, hseen]
      exact Deed.run_blind hdeed.honest c

/-! ## Runs -/

omit [Bus β] in
theorem delaySlot_blind {one : Exec β Unit} (h : Blind one) : Blind (delaySlot one) := by
  intro c
  have hbody : Blind (if c.flags.dual then (do one; one) else one) :=
    .ite (h.bind fun _ => h) h
  have hpairing : c.seen.flags.dual = c.flags.dual := rfl
  rw [delaySlot_apply, delaySlot_apply, hpairing]
  obtain ⟨_, d, d', hseen, hran, hd⟩ | ⟨e, d, d', hseen, hran, hd⟩ :=
    asSeen_cases (hbody c.inSlot)
  · have hseen' : (if c.flags.dual then (do one; one) else one : Exec β Unit) c.seen.inSlot =
        .ok () d := hseen
    rw [hseen', hran]
    exact congrArg (fun m : Cpu β => EStateM.Result.ok () (m.backAt c.pc)) hd
  · have hseen' : (if c.flags.dual then (do one; one) else one : Exec β Unit) c.seen.inSlot =
        .error e d := hseen
    rw [hseen', hran]
    exact congrArg (fun m : Cpu β => EStateM.Result.error e.fromSlot (m.backAt c.pc)) hd

theorem executeOne_blind (depth : Nat) : Blind (executeOne (β := β) depth) := by
  induction depth with
  | zero => exact .throw _
  | succ depth ih =>
      refine .get (fun _ => rfl) fun c => (fetch_blind _).bind fun w => ?_
      refine (Blind.modify fun _ => rfl).bind fun _ => ?_
      exact (execute_blind ⟨w⟩ (delaySlot_blind ih)).bind fun _ => .modify fun _ => rfl

/-- A run takes no notice of what instructions do not see. -/
theorem executePair_blind (depth : Nat) : Blind (executePair (β := β) depth) := by
  refine .get (fun _ => rfl) fun c => (executeOne_blind depth).bind fun _ => ?_
  exact .get (fun _ => rfl) fun _ => .ite (executeOne_blind depth) (.pure _)

end Instructions

@[simp] theorem Cpu.seen_advanceDual (c : Cpu β) : c.advanceDual.seen = c.seen.advanceDual := by
  have hflags : c.seen.flags = c.flags := rfl
  unfold advanceDual
  rw [hflags]
  split <;> rfl

end I860
