import I860.Proofs.Coherence
import I860.Proofs.Unseen

/-!
# A reset leaves no residue

After a reset a processor is the one that would be built now on the same board
from the same configuration, up to what belongs to the host and to the counts
for telemetry (`clearCounts_reset`). Two things that a reset does not write have
to be known for that: the parameters and the sizes of the two buffers, both as
the configuration gave them. The parameters are part of the coherent control
state; the sizes are kept because nothing resizes a buffer (`Cpu.geometry`).

From there on the two go the same way. Counts are nothing that instructions see,
and the two processors agree in all that they do see, and in the pin.
-/

namespace I860

variable {β : Type}

/-! ## The sizes of the buffers -/

/-- How many bits of a page number select a set of the lookaside buffer, and how
many of an address select a line of the instruction cache. -/
def Cpu.geometry (c : Cpu β) : Nat × Nat := (c.mmu.tlb.setBits, c.icache.lineBits)

theorem Computes.geometry {f : Cpu β → Cpu β} (h : Computes f) (c : Cpu β) :
    (f c).geometry = c.geometry :=
  congrArg (fun s : Surroundings β => (s.mmu.tlb.setBits, s.icache.lineBits)) (h.surroundings_eq c)

theorem Tlb.setBits_insert (b : Tlb) (page : Word) (forWrite : Bool) (t : PageMapping) :
    (b.insert page forWrite t).setBits = b.setBits := by
  cases forWrite <;> rfl

theorem Cpu.geometry_writeControl (c : Cpu β) (reg : ControlReg) (v : Word) :
    (c.writeControl reg v).geometry = c.geometry := by
  cases reg with
  | dirbase =>
      dsimp only [writeControl, writeDirbase]
      split
      · rfl
      · split <;> rfl
  | _ => rfl

section Geometry

variable [Bus β]

theorem Mmu.setBits_translate (m : Mmu) (order : ByteOrder) (board : β) (dirbase : Dirbase)
    (vaddr : VirtAddr) (access : AccessKind) (who : Privilege) :
    (m.translate order board dirbase vaddr access who).2.1.tlb.setBits = m.tlb.setBits := by
  have hwalk : (m.translateByWalk order board dirbase.dtb vaddr access who).2.1.tlb.setBits =
      m.tlb.setBits := by
    unfold translateByWalk
    dsimp only
    split
    · rfl
    · exact m.tlb.setBits_insert _ _ _
  obtain ⟨_, h, -⟩ | ⟨_, h⟩ | h := m.translate_cases order board dirbase vaddr access who
  · rw [h]
  · rw [h]
  · rw [h, hwalk]

theorem untouched_geometry : Untouched (Cpu.geometry (β := β)) where
  compute h := h.geometry
  translate vaddr access c := by
    have hbits := c.mmu.setBits_translate c.order c.board c.control.dirbase vaddr access c.privilege
    rw [translate_apply]
    generalize c.mmu.translate c.order c.board c.control.dirbase vaddr access c.privilege = r
      at hbits
    obtain ⟨result, mmu, board⟩ := r
    cases result <;> exact congrArg (·, c.icache.lineBits) hbits
  board _ _ := rfl
  control := Cpu.geometry_writeControl

theorem Cpu.geometry_fetch (c : Cpu β) (pc : VirtAddr) :
    (finalState (fetch pc c)).geometry = c.geometry := by
  cases hpeek : c.icache.peek pc with
  | some pair =>
      rw [fetch_of_hit hpeek]
      rfl
  | none =>
      have hbits := c.mmu.setBits_translate c.order c.board c.control.dirbase
        (InstructionCache.pairAddr pc) .fetch c.privilege
      rw [fetch_of_miss hpeek]
      generalize c.mmu.translate c.order c.board c.control.dirbase
        (InstructionCache.pairAddr pc) .fetch c.privilege = r at hbits
      obtain ⟨result, mmu, board⟩ := r
      cases result <;> exact congrArg (·, c.icache.lineBits) hbits

theorem Interlude.geometry {c d : Cpu β} (h : Interlude c d) : d.geometry = c.geometry := by
  cases h with
  | fetch pc => exact c.geometry_fetch pc
  | @refuse slot i e d straight ran =>
      have hkept := untouched_geometry.execute slot straight c
      rwa [ran] at hkept
  | advanceDual =>
      unfold Cpu.advanceDual
      split <;> rfl
  | _ => rfl

theorem Cpu.geometry_step (c : Cpu β) : c.step.geometry = c.geometry :=
  (step_course c).preserves (P := fun d => d.geometry = c.geometry)
    (fun hinterlude hc => hinterlude.geometry.trans hc)
    (fun {slot} {i} {d} {e} straight ran hc => by
      have hkept := untouched_geometry.execute slot straight d
      rw [ran] at hkept
      exact hkept.trans hc) rfl

omit [Bus β] in
theorem Cpu.geometry_reset (c : Cpu β) : c.reset.geometry = c.geometry := by
  have hmmu : c.reset.mmu = c.mmu.flush := by unfold reset; rfl
  have hicache : c.reset.icache = c.icache.invalidate := by unfold reset; rfl
  rw [geometry, hmmu, hicache]
  rfl

theorem HostAction.geometry {c d : Cpu β} (h : HostAction c d) : d.geometry = c.geometry := by
  cases h with
  | outside houtside => cases houtside <;> rfl
  | writeControl reg v => exact c.geometry_writeControl reg v
  | inspectInstruction pc =>
      obtain ⟨psr, heq⟩ := c.inspectInstruction_state pc
      rw [heq]
      exact c.geometry_fetch pc
  | withFloatUnit u => rfl

namespace Reachable

variable {config : Config} {c : Cpu β}

theorem geometry (h : Reachable config c) :
    c.geometry = (ceilLog2 config.core.tlbSets, ceilLog2 config.core.icacheLines) := by
  induction h with
  | @new board c built =>
      rw [(Cpu.eq_of_new built).2, Cpu.geometry_reset]
      rfl
  | reset _ ih => exact (Cpu.geometry_reset _).trans ih
  | step _ ih => exact (Cpu.geometry_step _).trans ih
  | host _ haction ih => exact haction.geometry.trans ih

/-- A processor can be built from the configuration again. -/
theorem new_eq (h : Reachable config c) (board : β) :
    Cpu.new board config = .ok (Cpu.powerUp board config).reset := by
  induction h with
  | new built =>
      have hvalid : config.validate = .ok config := by
        unfold Config.validate
        rw [(Cpu.eq_of_new built).1]
      unfold Cpu.new
      rw [hvalid, selfTest_eq]
      rfl
  | reset _ ih | step _ ih | host _ _ ih => exact ih

end Reachable

end Geometry

/-! ## Right after a reset -/

/-- The processor as the host has equipped another one: with its interrupt pin,
its floating-point unit and its listing. -/
def Cpu.equippedAs (d c : Cpu β) : Cpu β :=
  { (d.setIrqLine c.irqLine).withFloatUnit c.fpu with listing := c.listing }

theorem Cpu.clearCounts_reset {config : Config} {c : Cpu β} (hparams : c.params = .ofConfig config)
    (hgeometry : c.geometry = (ceilLog2 config.core.tlbSets, ceilLog2 config.core.icacheLines)) :
    c.reset.clearCounts = ((powerUp c.board config).reset.equippedAs c).clearCounts := by
  obtain ⟨hsets, hlines⟩ := Prod.mk.inj hgeometry
  have hmmu : c.mmu.flush.clearCounts = (Mmu.new config.core.tlbSets).flush.clearCounts := by
    simp [Mmu.flush, Mmu.clearCounts, Tlb.flush, Mmu.new, Tlb.new, hsets]
  have hicache : c.icache.invalidate.clearCounts =
      (InstructionCache.new config.core.icacheLines).invalidate.clearCounts := by
    simp [InstructionCache.invalidate, InstructionCache.clearCounts, InstructionCache.new, hlines]
  have hcontrol : c.resetControl =
      (((powerUp c.board config).reset.setIrqLine c.irqLine).withFloatUnit c.fpu).control := by
    unfold resetControl
    rw [hparams]
    rfl
  unfold equippedAs
  generalize hequipped :
    ((powerUp c.board config).reset.setIrqLine c.irqLine).withFloatUnit c.fpu = d at hcontrol
  unfold withFloatUnit setIrqLine setEpsr reset at hequipped
  unfold clearCounts reset
  dsimp only at hequipped ⊢
  rw [hparams, hmmu, hicache, hcontrol, ← hequipped]
  rfl

/-! ## Steps and the pin -/

/-- What happens to a processor while nobody but itself writes to the board. -/
inductive Stimulus where
  | step
  | pin (level : Bool)

namespace Cpu

variable [Bus β]

def respond (c : Cpu β) : Stimulus → Cpu β
  | .step => c.step
  | .pin level => c.setIrqLine level

def after (c : Cpu β) (stimuli : List Stimulus) : Cpu β := stimuli.foldl respond c

/-- The trap that the next step ends with. -/
def trap? (c : Cpu β) : Option Trap :=
  match executePair maxNesting c.beginStep with
  | .ok _ d => if d.advanceDual.acceptsInterrupt then some .ofPin else none
  | .error (.trap t) _ => some t
  | .error .endlessSlot _ => none

omit [Bus β] in
theorem clearCounts_eq (c : Cpu β) :
    c.clearCounts = { c.seen with irqLine := c.irqLine, listing := c.listing } := rfl

omit [Bus β] in
theorem advanceDual_clearCounts (c : Cpu β) :
    c.clearCounts.advanceDual = c.advanceDual.clearCounts := by
  have hflags : c.clearCounts.flags = c.flags := rfl
  unfold advanceDual
  rw [hflags]
  split <;> rfl

omit [Bus β] in
theorem takeInterrupt_clearCounts (c : Cpu β) :
    c.clearCounts.takeInterrupt.countStep.clearCounts =
      c.takeInterrupt.countStep.clearCounts := by
  have haccepts : c.clearCounts.acceptsInterrupt = c.acceptsInterrupt := rfl
  unfold takeInterrupt
  rw [haccepts]
  split <;> rfl

/-- Counts make no difference to a step. -/
theorem clearCounts_step {c d : Cpu β} (h : c.clearCounts = d.clearCounts) :
    c.step.clearCounts = d.step.clearCounts ∧ c.trap? = d.trap? := by
  have hseen : c.beginStep.seen = d.beginStep.seen := by
    have hboth := congrArg (fun c : Cpu β => c.beginStep.seen) h
    exact hboth
  have hends := (executePair_blind maxNesting).alike hseen
  have hhost := Moves.sameHost (executePair_moves maxNesting c.beginStep)
  have hhost' := Moves.sameHost (executePair_moves maxNesting d.beginStep)
  have hpin : d.beginStep.irqLine = c.beginStep.irqLine := congrArg (·.irqLine) h.symm
  have hlisting : d.beginStep.listing = c.beginStep.listing := congrArg (·.listing) h.symm
  have hclear : ∀ {m n : Cpu β}, m.seen = n.seen → SameHost c.beginStep m →
      SameHost d.beginStep n → m.clearCounts = n.clearCounts := by
    intro m n hsame hm hn
    rw [clearCounts_eq, clearCounts_eq, hsame, hm.irqLine, hm.listing, hn.irqLine, hn.listing,
      hpin, hlisting]
  unfold step trap?
  obtain ⟨_, m, n, hran, hran', hsame⟩ | ⟨e, m, n, hran, hran', hsame⟩ := asSeen_cases hends
  · rw [hran] at hhost ⊢
    rw [hran'] at hhost' ⊢
    have hmn := congrArg (fun m : Cpu β => m.advanceDual) (hclear hsame hhost hhost')
    dsimp only at hmn ⊢
    rw [advanceDual_clearCounts, advanceDual_clearCounts] at hmn
    have haccepts : m.advanceDual.acceptsInterrupt = n.advanceDual.acceptsInterrupt := by
      have hboth := congrArg acceptsInterrupt hmn
      exact hboth
    refine ⟨?_, by rw [haccepts]⟩
    have htaken := congrArg (fun m : Cpu β => m.takeInterrupt.countStep.clearCounts) hmn
    rwa [takeInterrupt_clearCounts, takeInterrupt_clearCounts] at htaken
  · rw [hran] at hhost ⊢
    rw [hran'] at hhost' ⊢
    have hmn := hclear hsame hhost hhost'
    cases e with
    | trap t =>
        have hentered := congrArg (fun m : Cpu β => (m.enterTrap t).countStep.clearCounts) hmn
        exact ⟨hentered, rfl⟩
    | endlessSlot => exact ⟨h, rfl⟩

theorem clearCounts_after {c d : Cpu β} (h : c.clearCounts = d.clearCounts)
    (stimuli : List Stimulus) : (c.after stimuli).clearCounts = (d.after stimuli).clearCounts := by
  induction stimuli generalizing c d with
  | nil => exact h
  | cons stimulus stimuli ih =>
      apply ih
      cases stimulus with
      | step => exact (clearCounts_step h).1
      | pin level =>
          have hpinned := congrArg (fun c : Cpu β => c.setIrqLine level) h
          exact hpinned

end Cpu

/-- Whatever a processor has been through, after a reset it goes the way of one
that is built anew from the same configuration on the same board, and equipped
alike by the host. The two agree in everything but the counts, whatever steps
they make and however their pins are driven, and their steps end with the same
traps. -/
theorem reset_leaves_no_residue [Bus β] {config : Config} {c : Cpu β}
    (h : Reachable config c) :
    ∃ built, Cpu.new c.board config = .ok built ∧
      ∀ stimuli : List Stimulus,
        (c.reset.after stimuli).clearCounts =
            ((built.equippedAs c).after stimuli).clearCounts ∧
          (c.reset.after stimuli).trap? = ((built.equippedAs c).after stimuli).trap? := by
  refine ⟨_, h.new_eq c.board, fun stimuli => ?_⟩
  have hsame := Cpu.clearCounts_after (Cpu.clearCounts_reset h.coherent.built h.geometry) stimuli
  exact ⟨hsame, (Cpu.clearCounts_step hsame).2⟩

/-- A processor that was switched to high bytes first and to another rounding
mode, has its pin up and has made a step. -/
def usedCpu : Cpu OpenMemory :=
  ((((Cpu.powerUp .blank .default).reset.writeControl .epsr 0x00800000#32).writeControl .fsr
    0xc#32).setIrqLine true).step

theorem reset_leaves_no_residue_of_used :
    usedCpu.order = .big ∧
      ∃ built, Cpu.new usedCpu.board .default = .ok built ∧
        (usedCpu.reset.after [.step, .pin false, .step]).clearCounts =
          ((built.equippedAs usedCpu).after [.step, .pin false, .step]).clearCounts := by
  have hnew : Cpu.new .blank .default = .ok (Cpu.powerUp OpenMemory.blank .default).reset := by
    have hvalid : Config.default.validate = .ok Config.default := rfl
    unfold Cpu.new
    rw [hvalid, selfTest_eq]
    rfl
  have hreachable : Reachable .default usedCpu :=
    .step (.host (.host (.host (.new hnew) (.writeControl .epsr _)) (.writeControl .fsr _))
      (.outside (.pin true)))
  have hbig : usedCpu.order = .big := by decide +kernel
  obtain ⟨built, hbuilt, hsame⟩ := reset_leaves_no_residue hreachable
  exact ⟨hbig, built, hbuilt, (hsame _).1⟩

end I860
