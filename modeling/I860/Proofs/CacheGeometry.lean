import I860.Proofs.DelaySlot
import I860.Proofs.ResetResidue
import I860.Proofs.Twins

/-!
# The sizes of the buffers are invisible

A log of touches goes along with the run of an instruction, of a slot, of a pair
and of a step, and `Lockstep` says what it is for: where the touches in the log
are orderly, twins end the run in the same way and are twins again. From one
instruction this goes through the slots by induction on their nesting, and from
one step to all of them by induction on the run.

Two processors that were reset on the same memory are twins, whatever sizes
their buffers have, since both have used nothing yet.
-/

namespace I860

variable {β : Type} [Bus β]

section Memory

variable [PlainMemory β] {f : Footprint} {c d : Cpu β}

/-! ## Runs in lock step -/

/-- A program, and a log of how it touches memory, by which twins run in lock
step. -/
def Lockstep (one : Exec β Unit) (log : Cpu β → List (Touch β)) : Prop :=
  ∀ {f : Footprint} {c d : Cpu β}, Twins f c d → OrderlyAll f (log c) →
    SameEnd (Twins (f.afterAll (log c))) (one c) (one d)

namespace SlotPlan

variable (p : SlotPlan)

omit [Bus β]

theorem passive_enter : Passive (p.enter (β := β)) := by
  unfold enter
  cases p.written with
  | none => exact ⟨fun _ _ => rfl, fun _ => rfl, fun _ => rfl⟩
  | some write => exact ⟨fun _ _ => rfl, fun _ => rfl, fun _ => rfl⟩

theorem passive_undo (c : Cpu β) : Passive (p.undo c) := by
  unfold undo
  cases p.written with
  | none => exact ⟨fun _ _ => rfl, fun _ => rfl, fun _ => rfl⟩
  | some write => exact ⟨fun _ _ => rfl, fun _ => rfl, fun _ => rfl⟩

theorem passive_leave : Passive (p.leave (β := β)) := by
  obtain ⟨written, target, returns, loop⟩ := p
  cases returns <;> cases loop <;> exact ⟨fun _ _ => rfl, fun _ => rfl, fun _ => rfl⟩

end SlotPlan

omit [PlainMemory β] in
theorem Twins.branch (h : Twins f c d) {p : SlotPlan} {slot : Exec β Unit}
    {log : Cpu β → List (Touch β)} (hslot : Lockstep slot log)
    (ho : OrderlyAll f (log (p.enter c))) :
    SameEnd (Twins (f.afterAll (log (p.enter c)))) (p.run slot c) (p.run slot d) := by
  have hran := hslot (h.map p.passive_enter) ho
  have hundo : p.undo d = p.undo c := by
    rw [h.rest]
    rfl
  unfold SlotPlan.run
  rw [hundo]
  generalize slot (p.enter c) = r at hran
  generalize slot (p.enter d) = r' at hran
  cases hran with
  | ok _ hmn => exact .ok () (hmn.map p.passive_leave)
  | error e hmn => exact .error e (hmn.map (p.passive_undo c))

omit [Bus β] in
theorem Footprint.afterAll_append (f : Footprint) (first rest : List (Touch β)) :
    f.afterAll (first ++ rest) = (f.afterAll first).afterAll rest :=
  List.foldl_append

/-- The log of two programs in sequence, the second run where the first
completes. -/
def touchesInSequence (log : Cpu β → List (Touch β)) (one : Exec β Unit) (c : Cpu β) :
    List (Touch β) :=
  log c ++
    match one c with
    | .ok _ m => log m
    | .error _ _ => []

/-- The log of a slot. -/
def touchesInSlot (log : Cpu β → List (Touch β)) (one : Exec β Unit) (c : Cpu β) :
    List (Touch β) :=
  if c.flags.dual then touchesInSequence log one c.inSlot else log c.inSlot

/-- How the instruction at the program counter touches memory, with those in its
slot. -/
def touchesByOne : (depth : Nat) → Cpu β → List (Touch β)
  | 0, _ => []
  | depth + 1, c =>
      .ofFetch c.pc c ::
        match fetch c.pc c with
        | .error _ _ => []
        | .ok w d =>
            let i : Instruction := ⟨w⟩
            let n := d.noteIssue c.pc i
            if i.op.isDelayedBranch then
              match slotPlan? i n with
              | none => []
              | some p => touchesInSlot (touchesByOne depth) (executeOne depth) (p.enter n)
            else i.touches (delaySlot (executeOne depth)) n

/-- How the pair at the program counter touches memory. -/
def touchesByPair (depth : Nat) (c : Cpu β) : List (Touch β) :=
  touchesByOne depth c ++
    match executeOne depth c with
    | .ok _ m => if !c.pc.getLsbD 2 && !m.flags.pcUpdated then touchesByOne depth m else []
    | .error _ _ => []

namespace Lockstep

variable {one : Exec β Unit} {log : Cpu β → List (Touch β)}

omit [PlainMemory β] in
theorem seq (h : Lockstep one log) : Lockstep (do one; one) (touchesInSequence log one) := by
  intro f c d htwins ho
  obtain ⟨hfirst, hrest⟩ := ho.append
  have hone := h htwins hfirst
  rw [Exec.bind_apply, Exec.bind_apply, touchesInSequence, Footprint.afterAll_append]
  generalize one c = r at hone hrest
  generalize one d = r' at hone
  cases hone with
  | ok a hmn => exact h hmn hrest
  | error e hmn => exact .error e hmn

omit [PlainMemory β] in
theorem slot (h : Lockstep one log) : Lockstep (delaySlot one) (touchesInSlot log one) := by
  intro f c d htwins ho
  have hinto : Twins f c.inSlot d.inSlot :=
    htwins.map (g := Cpu.inSlot) ⟨fun _ _ => rfl, fun _ => rfl, fun _ => rfl⟩
  have hbody : SameEnd (Twins (f.afterAll (touchesInSlot log one c)))
      ((if c.flags.dual then (do one; one) else one : Exec β Unit) c.inSlot)
      ((if c.flags.dual then (do one; one) else one : Exec β Unit) d.inSlot) := by
    unfold touchesInSlot at ho ⊢
    split at ho
    · next hon =>
        rw [if_pos hon, if_pos hon]
        exact h.seq hinto ho
    · next hoff =>
        rw [if_neg hoff, if_neg hoff]
        exact h hinto ho
  have hback : Passive fun m : Cpu β => m.backAt c.pc :=
    ⟨fun _ _ => rfl, fun _ => rfl, fun _ => rfl⟩
  rw [delaySlot_apply, delaySlot_apply, htwins.flags, htwins.pc]
  generalize (if c.flags.dual then (do one; one) else one : Exec β Unit) c.inSlot = r at hbody
  generalize (if c.flags.dual then (do one; one) else one : Exec β Unit) d.inSlot = r' at hbody
  cases hbody with
  | ok _ hmn => exact .ok () (hmn.map hback)
  | error e hmn => exact .error e.fromSlot (hmn.map hback)

end Lockstep

omit [Bus β] in
theorem slotPlan?_beside (i : Instruction) (c d : Cpu β) :
    slotPlan? i (c.beside d) = slotPlan? i c := by
  unfold slotPlan?
  cases i.op <;> rfl

omit [PlainMemory β] in
theorem SameEnd.modify {x : Exec β Unit} {g : Cpu β → Cpu β} (hg : Passive g)
    (h : SameEnd (Twins f) (x c) (x d)) :
    SameEnd (Twins f) ((do x; modify g : Exec β Unit) c) ((do x; modify g : Exec β Unit) d) := by
  rw [Exec.bind_apply, Exec.bind_apply]
  generalize x c = r at h
  generalize x d = r' at h
  cases h with
  | ok _ htwins => exact .ok () (htwins.map hg)
  | error e htwins => exact .error e htwins

theorem executeOne_lockstep (depth : Nat) :
    Lockstep (executeOne (β := β) depth) (touchesByOne depth) := by
  induction depth with
  | zero => exact fun htwins _ => .error _ htwins
  | succ depth ih =>
      intro f c d htwins ho
      have hfetched := htwins.fetch ho.1
      have hrest := ho.2
      have hlog : f.afterAll (touchesByOne (depth + 1) c) =
        (f.after (.ofFetch c.pc c)).afterAll (touchesByOne (depth + 1) c).tail := rfl
      rw [hlog, executeOne, Exec.bind_apply, Exec.bind_apply, Exec.get_apply, Exec.get_apply]
      generalize f.after (.ofFetch c.pc c) = f' at hfetched hrest
      rw [touchesByOne]
      dsimp only
      rw [Exec.bind_apply, Exec.bind_apply, htwins.pc]
      generalize fetch c.pc c = r at hfetched hrest
      generalize fetch c.pc d = r' at hfetched
      cases hfetched with
      | error e hmn => exact .error e hmn
      | @ok w m n hmn =>
          have hnoted : Twins f' (m.noteIssue c.pc ⟨w⟩) (n.noteIssue c.pc ⟨w⟩) :=
            hmn.map (g := fun m => m.noteIssue c.pc ⟨w⟩)
              ⟨fun _ _ => rfl, fun _ => rfl, fun _ => rfl⟩
          dsimp only at hrest ⊢
          rw [Exec.bind_apply, Exec.bind_apply, Exec.modify_apply, Exec.modify_apply]
          dsimp only
          generalize m.noteIssue c.pc ⟨w⟩ = m' at hnoted hrest
          generalize n.noteIssue c.pc ⟨w⟩ = n' at hnoted
          refine SameEnd.modify ⟨fun _ _ => rfl, fun _ => rfl, fun _ => rfl⟩ ?_
          cases hop : (⟨w⟩ : Instruction).op.isDelayedBranch with
          | false =>
              rw [hop, if_neg Bool.false_ne_true] at hrest
              exact hnoted.instruction hop hrest
          | true =>
              have hplan : slotPlan? ⟨w⟩ n' = slotPlan? ⟨w⟩ m' := by
                rw [hnoted.rest, slotPlan?_beside]
              rw [hop, if_pos rfl] at hrest
              rw [execute_branch _ m' _ hop, execute_branch _ n' _ hop, hplan]
              cases hplanned : slotPlan? ⟨w⟩ m' with
              | none =>
                  refine .ok () (hnoted.map (g := fun m => m.jump m.afterSlot) ?_)
                  exact ⟨fun _ _ => rfl, fun _ => rfl, fun _ => rfl⟩
              | some p =>
                  rw [hplanned] at hrest
                  exact hnoted.branch ih.slot hrest

theorem executePair_lockstep (depth : Nat) :
    Lockstep (executePair (β := β) depth) (touchesByPair depth) := by
  intro f c d htwins ho
  obtain ⟨hfirst, hrest⟩ := ho.append
  have hone := executeOne_lockstep depth htwins hfirst
  rw [executePair_apply, executePair_apply, touchesByPair, Footprint.afterAll_append, htwins.pc]
  generalize executeOne depth c = r at hone hrest
  generalize executeOne depth d = r' at hone
  cases hone with
  | error e hmn => exact .error e hmn
  | @ok a m n hmn =>
      dsimp only at hrest ⊢
      rw [hmn.flags]
      split at hrest
      · next hmore =>
          rw [if_pos hmore, if_pos hmore, if_pos hmore]
          exact executeOne_lockstep depth hmn hrest
      · next hover =>
          rw [if_neg hover, if_neg hover, if_neg hover]
          exact .ok () hmn

/-! ## Steps -/

/-- The footprint behind a step. A step that finds slots nested without end does
nothing. -/
def Footprint.afterStep (f : Footprint) (c : Cpu β) : Footprint :=
  match executePair maxNesting c.beginStep with
  | .error .endlessSlot _ => f
  | _ => f.afterAll (touchesByPair maxNesting c.beginStep)

section Passive

omit [Bus β]

theorem passive_advanceDual : Passive (Cpu.advanceDual (β := β)) := by
  have hflags : ∀ c d : Cpu β, (c.beside d).flags = c.flags := fun _ _ => rfl
  unfold Cpu.advanceDual
  refine ⟨fun c d => ?_, fun c => ?_, fun c => ?_⟩
  · rw [hflags]
    split <;> rfl
  · split <;> rfl
  · split <;> rfl

theorem passive_takeInterrupt : Passive (Cpu.takeInterrupt (β := β)) := by
  have haccepts : ∀ c d : Cpu β, (c.beside d).acceptsInterrupt = c.acceptsInterrupt :=
    fun _ _ => rfl
  unfold Cpu.takeInterrupt
  refine ⟨fun c d => ?_, fun c => ?_, fun c => ?_⟩
  · rw [haccepts]
    split <;> rfl
  · split <;> rfl
  · split <;> rfl

end Passive

/-- Twins make the same step. -/
theorem Twins.step (h : Twins f c d) (ho : OrderlyAll f (touchesByPair maxNesting c.beginStep)) :
    Twins (f.afterStep c) c.step d.step := by
  have hbegun : Twins f c.beginStep d.beginStep :=
    h.map ⟨fun _ _ => rfl, fun _ => rfl, fun _ => rfl⟩
  have hran := executePair_lockstep maxNesting hbegun ho
  have hcount : Passive (Cpu.countStep (β := β)) :=
    ⟨fun _ _ => rfl, fun _ => rfl, fun _ => rfl⟩
  unfold Footprint.afterStep Cpu.step
  generalize executePair maxNesting c.beginStep = r at hran
  generalize executePair maxNesting d.beginStep = r' at hran
  cases hran with
  | ok _ hmn =>
      exact ((hmn.map passive_advanceDual).map passive_takeInterrupt).map hcount
  | @error e m n hmn =>
      cases e with
      | trap t =>
          have henter : Passive fun m : Cpu β => m.enterTrap t :=
            ⟨fun _ _ => rfl, fun _ => rfl, fun _ => rfl⟩
          exact (hmn.map henter).map hcount
      | endlessSlot => exact h

/-- Each touch of memory is orderly in its turn, in all the steps of a run. -/
def OrderlyRun : Footprint → Cpu β → List Stimulus → Prop
  | _, _, [] => True
  | f, c, .step :: rest =>
      OrderlyAll f (touchesByPair maxNesting c.beginStep) ∧
        OrderlyRun (f.afterStep c) c.step rest
  | f, c, .pin level :: rest => OrderlyRun f (c.setIrqLine level) rest

instance : (f : Footprint) → (c : Cpu β) → (stimuli : List Stimulus) →
    Decidable (OrderlyRun f c stimuli)
  | _, _, [] => inferInstanceAs (Decidable True)
  | f, c, .step :: rest =>
      have := instDecidableOrderlyRun (f.afterStep c) c.step rest
      inferInstanceAs (Decidable (OrderlyAll f (touchesByPair maxNesting c.beginStep) ∧
        OrderlyRun (f.afterStep c) c.step rest))
  | f, c, .pin level :: rest => instDecidableOrderlyRun f (c.setIrqLine level) rest

theorem Twins.after (h : Twins f c d) {stimuli : List Stimulus} (ho : OrderlyRun f c stimuli)
    (count : Nat) : Alike (c.after (stimuli.take count)) (d.after (stimuli.take count)) := by
  induction stimuli generalizing f c d count with
  | nil =>
      rw [List.take_nil]
      exact h.toAlike
  | cons stimulus rest ih =>
      cases count with
      | zero => exact h.toAlike
      | succ count =>
          cases stimulus with
          | step => exact ih (h.step ho.1) ho.2 count
          | pin level =>
              have hpin : Passive fun m : Cpu β => m.setIrqLine level :=
                ⟨fun _ _ => rfl, fun _ => rfl, fun _ => rfl⟩
              exact ih (h.map hpin) ho count

omit [PlainMemory β] in
/-- A reset empties the buffers, however large they are. -/
theorem Alike.reset (h : Alike c d) : Twins .empty c.reset d.reset := by
  have hsound : ∀ c : Cpu β, Sound .empty c.reset := by
    intro c
    have hdtb : c.reset.control.dirbase.dtb = 0#32 := by unfold Cpu.reset; rfl
    have hmmu : c.reset.mmu = c.mmu.flush := by unfold Cpu.reset; rfl
    have hicache : c.reset.icache = c.icache.invalidate := by unfold Cpu.reset; rfl
    refine .of_empty ?_ (fun page t => ?_) fun tag pair => ?_
    · rw [hdtb]
      rfl
    · rw [hmmu]
      exact Tlb.not_keeps_flush _ _ _
    · rw [hicache]
      exact InstructionCache.not_keeps_invalidate _ _ _
  refine ⟨⟨?_, ?_⟩, hsound c, hsound d⟩
  · rw [h.rest]
    unfold Cpu.reset
    rfl
  · have hboard : ∀ c : Cpu β, c.reset.board = c.board := by
      intro c
      unfold Cpu.reset
      rfl
    rw [hboard, hboard]
    exact h.board

/-- The configuration with buffers of other sizes. -/
def Config.withBuffers (config : Config) (lines sets : Nat) : Config :=
  { config with core := { config.core with icacheLines := lines, tlbSets := sets } }

/-- Two processors are built on the same plain memory from configurations that
give their buffers different sizes, and get the same stimuli. As long as each
touch of memory in the run of the first is orderly, they agree after every
stimulus in all that they hold beside their buffers, and in memory. -/
theorem buffer_sizes_are_invisible {board : β} {config : Config} {lines sets : Nat}
    (built : Cpu.new board config = .ok c)
    (built' : Cpu.new board (config.withBuffers lines sets) = .ok d) {stimuli : List Stimulus}
    (ho : OrderlyRun .empty c stimuli) (count : Nat) :
    Alike (c.after (stimuli.take count)) (d.after (stimuli.take count)) := by
  have halike : Alike (Cpu.powerUp board config)
      (Cpu.powerUp board (config.withBuffers lines sets)) := ⟨rfl, .refl _⟩
  rw [(Cpu.eq_of_new built).2] at ho ⊢
  rw [(Cpu.eq_of_new built').2]
  exact halike.reset.after ho count

end Memory

/-- A program at 0x3000 that turns paging on, loads from the page at 0x4000 and
goes back to the load, with the slot of its jump in another pair. The directory is
at 0x1000 and its first table at 0x2000. -/
def loadLoop : OpenMemory :=
  .ofBlocks [(0x1000#32, [0x2007#32]), (0x200c#32, [0x3003#32, 0x4003#32]),
    (0x3000#32, [0xe4041021#32, 0x38402000#32, 0x14064001#32, 0x6bfffffe#32, 0xa0000000#32]),
    (0x4000#32, [0x12345678#32])]

def loadLoopConfig : Config :=
  { Config.default with general := { Config.default.general with startPc := 0x3000#32 } }

/-- With one set only, the load pushes the page of the code out of the lookaside
buffer, and the slot of the jump has it translated again. -/
theorem buffer_sizes_are_invisible_of_paged_code :
    let c := (Cpu.powerUp loadLoop loadLoopConfig).reset
    let d := (Cpu.powerUp loadLoop (loadLoopConfig.withBuffers 1 1)).reset
    (c.after [.step, .step]).mmu.misses < (d.after [.step, .step]).mmu.misses ∧
      Alike (c.after [.step, .step]) (d.after [.step, .step]) := by
  intro c d
  have hnew : ∀ config : Config, config.validate = .ok config →
      Cpu.new loadLoop config = .ok (Cpu.powerUp loadLoop config).reset := by
    intro config hvalid
    unfold Cpu.new
    rw [hvalid, selfTest_eq]
    rfl
  have horderly : OrderlyRun .empty c [.step, .step] := by decide +kernel
  have hmisses : (c.after [.step, .step]).mmu.misses < (d.after [.step, .step]).mmu.misses := by
    decide +kernel
  exact ⟨hmisses, buffer_sizes_are_invisible (hnew _ rfl) (hnew _ rfl) horderly 2⟩

end I860
