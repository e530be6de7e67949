import I860.Proofs.DelaySlot

/-!
# What running instructions consists of

`executeOne_issue` says once what becomes of the instruction at the program
counter: it cannot be fetched, it is refused, it completes, or it is a delayed
branch, and then its slot decides. Everything about runs is derived from
these cases by induction on how deep slots are nested.

Most of it goes through `Move`. Whether a run completes or faults, its last
state is reached from its first by a sequence of a few kinds of move
(`executePair_moves`), so what each kind preserves holds at the end of every
run.
-/

namespace I860

variable {β : Type}

/-- The state in which a run has ended, in whatever way. -/
def finalState {α : Type} : EStateM.Result Fault (Cpu β) α → Cpu β
  | .ok _ c => c
  | .error _ c => c

/-- Whether a run has completed. -/
def ranThrough {α : Type} : EStateM.Result Fault (Cpu β) α → Bool
  | .ok _ _ => true
  | .error _ _ => false

theorem eq_ok_of_ranThrough {r : EStateM.Result Fault (Cpu β) Unit}
    (h : ranThrough r = true) : r = .ok () (finalState r) := by
  cases r with
  | ok a c => rfl
  | error e c => cases h

/-- The trap that a run has ended with, if it has. -/
def trapOf {α : Type} : EStateM.Result Fault (Cpu β) α → Option Trap
  | .error (.trap t) _ => some t
  | _ => none

theorem eq_error_of_trapOf {α : Type} {r : EStateM.Result Fault (Cpu β) α} {t : Trap}
    (h : trapOf r = some t) : r = .error (.trap t) (finalState r) := by
  cases r with
  | ok a c => cases h
  | error e c =>
      cases e with
      | trap t' => cases h; rfl
      | endlessSlot => cases h

/-- A fault as it is seen from outside of the slot it arose in. -/
def Fault.fromSlot : Fault → Fault
  | .trap t => .trap t.markDelaySlot
  | .endlessSlot => .endlessSlot

namespace Cpu

/-- The state in which a slot starts. -/
def inSlot (c : Cpu β) : Cpu β := { c with pc := c.pc + 4#32 }

/-- The state behind a slot, with the program counter back at the branch. -/
def backAt (c : Cpu β) (pc : Word) : Cpu β :=
  { c with pc := pc, flags := { c.flags with pcUpdated := false } }

end Cpu

theorem delaySlot_apply (one : Exec β Unit) (c : Cpu β) :
    delaySlot one c =
      match (if c.flags.dual then (do one; one) else one : Exec β Unit) c.inSlot with
      | .ok _ d => .ok () (d.backAt c.pc)
      | .error e d => .error e.fromSlot (d.backAt c.pc) := by
  unfold delaySlot
  dsimp only
  have hin : { c with pc := c.pc + 4#32 } = c.inSlot := rfl
  rw [hin]
  cases (if c.flags.dual then (do one; one) else one : Exec β Unit) c.inSlot with
  | ok _ d => rfl
  | error e d => cases e <;> rfl

/-- In single issue a slot holds one instruction. -/
theorem delaySlot_single {one : Exec β Unit} {c : Cpu β} (hsingle : c.flags.dual = false) :
    delaySlot one c =
      match one c.inSlot with
      | .ok _ d => .ok () (d.backAt c.pc)
      | .error e d => .error e.fromSlot (d.backAt c.pc) := by
  rw [delaySlot_apply, hsingle]
  rfl

theorem eq_ok_of_delaySlot {one : Exec β Unit} {c d : Cpu β}
    (hsingle : c.flags.dual = false) (h : delaySlot one c = .ok () d) :
    ∃ e, one c.inSlot = .ok () e ∧ d = e.backAt c.pc := by
  rw [delaySlot_single hsingle] at h
  split at h
  · next e hone =>
      cases h
      exact ⟨e, hone, rfl⟩
  · cases h

theorem eq_error_of_delaySlot {one : Exec β Unit} {c d : Cpu β} {t : Trap}
    (hsingle : c.flags.dual = false) (h : delaySlot one c = .error (.trap t) d) :
    ∃ t₀ e, one c.inSlot = .error (.trap t₀) e ∧ t = t₀.markDelaySlot ∧
      d = e.backAt c.pc := by
  rw [delaySlot_single hsingle] at h
  split at h
  · cases h
  · next fault e hone =>
      cases fault with
      | trap t₀ =>
          cases h
          exact ⟨t₀, e, hone, rfl, rfl⟩
      | endlessSlot => cases h

/-- The trap of a slot says where it comes from. -/
theorem inDelaySlot_of_delaySlot {one : Exec β Unit} {c d : Cpu β} {t : Trap}
    (h : delaySlot one c = .error (.trap t) d) : t.inDelaySlot = true := by
  rw [delaySlot_apply] at h
  split at h
  · cases h
  · next e d' hrun =>
      cases e with
      | trap t' =>
          cases h
          rfl
      | endlessSlot => cases h

section Issue

variable [Bus β]

/-- The instruction at the program counter of `c` is `i`, and it is fetched
and noted in `n`. -/
def Fetched (c : Cpu β) (i : Instruction) (n : Cpu β) : Prop :=
  ∃ d, fetch c.pc c = .ok i.raw d ∧ LookedUp c d ∧ n = d.noteIssue c.pc i

/-- What becomes of the instruction at the program counter of `c`, for each
way in which its slot may be run. -/
inductive Issue (slot : Exec β Unit) (c : Cpu β) :
    EStateM.Result Fault (Cpu β) Unit → Prop
  | unfetched {d : Cpu β} (kind : TrapKind) (looked : LookedUp c d)
      (failed : fetch c.pc c = .error (.trap (.ofKind kind)) (d.faulted kind)) :
      Issue slot c (.error (.trap (.ofKind kind)) (d.faulted kind))
  | refused {i : Instruction} {n d : Cpu β} (kind : TrapKind) (fetched : Fetched c i n)
      (unplanned : slotPlan? i n = none) (looked : LookedUp n d) :
      Issue slot c (.error (.trap (.ofKind kind)) (d.faulted kind))
  | completed {i : Instruction} {n d : Cpu β} (fetched : Fetched c i n)
      (unplanned : slotPlan? i n = none) (effects : Effects n d) :
      Issue slot c (.ok () d.retire)
  | skipped {i : Instruction} {n : Cpu β} (fetched : Fetched c i n)
      (unplanned : slotPlan? i n = none) :
      Issue slot c (.ok () (n.jump n.afterSlot).retire)
  | branched {i : Instruction} {n d : Cpu β} {p : SlotPlan} (fetched : Fetched c i n)
      (planned : slotPlan? i n = some p) (ran : slot (p.enter n) = .ok () d) :
      Issue slot c (.ok () (p.leave d).retire)
  | slotFault {i : Instruction} {n d : Cpu β} {p : SlotPlan} {e : Fault}
      (fetched : Fetched c i n) (planned : slotPlan? i n = some p)
      (ran : slot (p.enter n) = .error e d) :
      Issue slot c (.error e (p.undo n d))

theorem execute_retire_issue (slot : Exec β Unit) {c n : Cpu β} {i : Instruction}
    (fetched : Fetched c i n) :
    Issue slot c ((do execute slot i; modify Cpu.retire : Exec β Unit) n) := by
  rw [Exec.bind_apply]
  cases hop : i.op.isDelayedBranch with
  | false =>
      have hends := execute_ends i n slot hop
      generalize execute slot i n = r at hends
      cases hends with
      | ok h => exact .completed fetched (slotPlan?_eq_none i n hop) h
      | refused kind h => exact .refused kind fetched (slotPlan?_eq_none i n hop) h
  | true =>
      rw [execute_branch i n slot hop]
      cases hplan : slotPlan? i n with
      | none => exact .skipped fetched hplan
      | some p =>
          dsimp only [SlotPlan.run]
          cases hslot : slot (p.enter n) with
          | ok _ d => exact .branched fetched hplan hslot
          | error e d => exact .slotFault fetched hplan hslot

/-- What becomes of the instruction at the program counter. -/
theorem executeOne_issue (depth : Nat) (c : Cpu β) :
    Issue (delaySlot (executeOne depth)) c (executeOne (depth + 1) c) := by
  have hfetch := fetch_ends c c.pc
  rw [executeOne, Exec.bind_apply, Exec.get_apply]
  dsimp only
  rw [Exec.bind_apply]
  cases hrun : fetch c.pc c with
  | ok w d =>
      rw [hrun] at hfetch
      cases hfetch with
      | ok hlooked =>
          exact execute_retire_issue (i := ⟨w⟩) _ ⟨d, hrun, hlooked, rfl⟩
  | error e d =>
      rw [hrun] at hfetch
      cases hfetch with
      | refused kind hlooked => exact .unfetched kind hlooked hrun

end Issue

/-! ## Moves -/

/-- One of the things that running instructions does to the processor. -/
inductive Move (c : Cpu β) : Cpu β → Prop
  | effect {d : Cpu β} (h : Effect c d) : Move c d
  | place (pc : Word) (updated : Bool) :
      Move c { c with pc := pc, flags := { c.flags with pcUpdated := updated } }
  | noteIssue (pc : VirtAddr) (i : Instruction) : Move c (c.noteIssue pc i)
  | retire : Move c c.retire
  | fault (kind : TrapKind) : Move c (c.faulted kind)
  | returnFromTrap : Move c c.returnFromTrap

abbrev Moves : Cpu β → Cpu β → Prop := Relation.ReflTransGen Move

/-- What every move preserves, a sequence of them preserves. -/
theorem Moves.preserves {P : Cpu β → Prop} (hmove : ∀ {c d}, Move c d → P c → P d)
    {c d : Cpu β} (h : Moves c d) (hc : P c) : P d := by
  induction h with
  | refl => exact hc
  | tail _ hlast ih => exact hmove hlast ih

theorem Moves.of_frame {c d : Cpu β} (h : d.frame = c.frame) : Moves c d :=
  .single (.effect (.compute h))

theorem Effects.moves {c d : Cpu β} (h : Effects c d) : Moves c d :=
  Relation.ReflTransGen.mono (fun _ _ => .effect) _ _ h

namespace SlotPlan

@[simp] theorem frame_enter (p : SlotPlan) (c : Cpu β) : (p.enter c).frame = c.frame := by
  unfold enter
  split <;> rfl

@[simp] theorem frame_undo (p : SlotPlan) (c d : Cpu β) :
    (p.undo c d).frame = d.frame := by
  unfold undo
  split <;> rfl

theorem leave_moves (p : SlotPlan) (d : Cpu β) : Moves d (p.leave d) := by
  have hgone : Moves d (if p.returns then d.returnFromTrap else d) := by
    split
    · exact .single .returnFromTrap
    · exact .refl
  have hjumped := hgone.tail (.effect (.jump (p.target.getD d.afterSlot)))
  unfold leave
  dsimp only
  split
  · exact hjumped
  · exact hjumped.trans (Moves.of_frame rfl)

theorem pcUpdated_leave (p : SlotPlan) (d : Cpu β) :
    (p.leave d).flags.pcUpdated = true := by
  obtain ⟨written, target, returns, loop⟩ := p
  cases loop <;> rfl

end SlotPlan

/-- A program whose every run is a sequence of moves. -/
def OnlyMoves (x : Exec β Unit) : Prop := ∀ c, Moves c (finalState (x c))

theorem OnlyMoves.seq {x y : Exec β Unit} (hx : OnlyMoves x) (hy : OnlyMoves y) :
    OnlyMoves (do x; y) := by
  intro c
  have hfirst := hx c
  rw [Exec.bind_apply]
  cases hxc : x c with
  | ok _ d =>
      rw [hxc] at hfirst
      exact hfirst.trans (hy d)
  | error e d =>
      rw [hxc] at hfirst
      exact hfirst

theorem OnlyMoves.delaySlot {one : Exec β Unit} (h : OnlyMoves one) :
    OnlyMoves (delaySlot one) := by
  intro c
  have hbody : OnlyMoves (if c.flags.dual then (do one; one) else one) := by
    split
    · exact h.seq h
    · exact h
  have hrun := hbody c.inSlot
  have hin : Moves c c.inSlot := .single (.place _ c.flags.pcUpdated)
  rw [delaySlot_apply]
  cases hr : (if c.flags.dual then (do one; one) else one : Exec β Unit) c.inSlot with
  | ok _ d =>
      rw [hr] at hrun
      exact (hin.trans hrun).tail (.place c.pc false)
  | error e d =>
      rw [hr] at hrun
      exact (hin.trans hrun).tail (.place c.pc false)

section Runs

variable [Bus β]

theorem LookedUp.moves {c d : Cpu β} (h : LookedUp c d) : Moves c d :=
  .single (.effect h.effect)

theorem Fetched.moves {c n : Cpu β} {i : Instruction} (h : Fetched c i n) : Moves c n := by
  obtain ⟨d, -, hlooked, rfl⟩ := h
  exact hlooked.moves.tail (.noteIssue c.pc i)

/-- One instruction moves if its slot does. -/
theorem Issue.moves {slot : Exec β Unit} (hslot : OnlyMoves slot) {c : Cpu β}
    {r : EStateM.Result Fault (Cpu β) Unit} (h : Issue slot c r) :
    Moves c (finalState r) := by
  cases h with
  | unfetched kind hlooked _ => exact hlooked.moves.tail (.fault kind)
  | refused kind hfetched _ hlooked =>
      exact (hfetched.moves.trans hlooked.moves).tail (.fault kind)
  | completed hfetched _ heffects =>
      exact (hfetched.moves.trans heffects.moves).tail .retire
  | skipped hfetched _ =>
      exact (hfetched.moves.tail (.effect (.jump _))).tail .retire
  | @branched i n d p hfetched _ hran =>
      have hrun := hslot (p.enter n)
      rw [hran] at hrun
      have hin := hfetched.moves.trans ((Moves.of_frame (p.frame_enter n)).trans hrun)
      exact (hin.trans (p.leave_moves d)).tail .retire
  | @slotFault i n d p e hfetched _ hran =>
      have hrun := hslot (p.enter n)
      rw [hran] at hrun
      have hin := hfetched.moves.trans ((Moves.of_frame (p.frame_enter n)).trans hrun)
      exact hin.trans (Moves.of_frame (p.frame_undo n d))

/-- Running an instruction is a sequence of moves, however deep its slots are
nested and however it ends. -/
theorem executeOne_moves (depth : Nat) : OnlyMoves (executeOne (β := β) depth) := by
  induction depth with
  | zero => exact fun c => .refl
  | succ depth ih => exact fun c => (executeOne_issue depth c).moves ih.delaySlot

theorem executePair_apply (depth : Nat) (c : Cpu β) :
    executePair depth c =
      match executeOne depth c with
      | .ok _ m =>
          if !c.pc.getLsbD 2 && !m.flags.pcUpdated then executeOne depth m else .ok () m
      | .error e m => .error e m := by
  rw [executePair, Exec.bind_apply, Exec.get_apply]
  dsimp only
  rw [Exec.bind_apply]
  cases executeOne depth c with
  | ok _ m =>
      dsimp only
      rw [Exec.bind_apply, Exec.get_apply]
      dsimp only
      rw [Exec.ite_apply]
      rfl
  | error e m => rfl

theorem executePair_moves (depth : Nat) : OnlyMoves (executePair (β := β) depth) := by
  intro c
  have hfirst := executeOne_moves depth c
  rw [executePair_apply]
  split
  · next m hone =>
      rw [hone] at hfirst
      split
      · exact hfirst.trans (executeOne_moves depth m)
      · exact hfirst
  · next e m hone =>
      rw [hone] at hfirst
      exact hfirst

end Runs

/-! ## What no move touches -/

/-- A write to a control register changes control registers, and what follows
them. The fault instruction register is not among them, and the status
register changes only when it is the one that is written. -/
theorem Cpu.writeControl_cases (c : Cpu β) (reg : ControlReg) (v : Word) :
    ∃ (control : ControlFile) (mmu : Mmu) (icache : InstructionCache) (fpu : FloatUnit)
      (order : ByteOrder),
      c.writeControl reg v =
          { c with
            control := control, mmu := mmu, icache := icache, fpu := fpu, order := order } ∧
        control.fir = c.control.fir ∧
        control.psr =
          if reg = .psr then c.control.psr.write v c.control.psr.u else c.control.psr := by
  cases reg with
  | fir => exact ⟨c.control, c.mmu, c.icache, c.fpu, c.order, rfl, rfl, rfl⟩
  | psr => exact ⟨_, c.mmu, c.icache, c.fpu, c.order, rfl, rfl, rfl⟩
  | db => exact ⟨_, c.mmu, c.icache, c.fpu, c.order, rfl, rfl, rfl⟩
  | fsr => exact ⟨_, c.mmu, c.icache, _, c.order, rfl, rfl, rfl⟩
  | epsr => exact ⟨_, c.mmu, c.icache, c.fpu, _, rfl, rfl, rfl⟩
  | dirbase =>
      dsimp only [writeControl, writeDirbase]
      split
      · exact ⟨_, _, _, c.fpu, c.order, rfl, rfl, rfl⟩
      · split
        · exact ⟨_, c.mmu, _, c.fpu, c.order, rfl, rfl, rfl⟩
        · exact ⟨_, c.mmu, c.icache, c.fpu, c.order, rfl, rfl, rfl⟩

/-- The modes that a processor is in, which instructions other than branches
leave alone: only the step around them changes modes. -/
structure SameMode (c d : Cpu β) : Prop where
  dual : d.dual = c.dual
  saved : d.saved = c.saved
  fir : d.control.fir = c.control.fir
  resumeCapable : d.resumeCapable = c.resumeCapable
  flags : { d.flags with pcUpdated := false } = { c.flags with pcUpdated := false }

namespace SameMode

theorem refl (c : Cpu β) : SameMode c c := ⟨rfl, rfl, rfl, rfl, rfl⟩

theorem trans {c d e : Cpu β} (h : SameMode c d) (h' : SameMode d e) : SameMode c e :=
  ⟨h'.dual.trans h.dual, h'.saved.trans h.saved, h'.fir.trans h.fir,
    h'.resumeCapable.trans h.resumeCapable, h'.flags.trans h.flags⟩

theorem of_frame {c d : Cpu β} (h : d.frame = c.frame) : SameMode c d := by
  have hdual : d.frame.dual = c.frame.dual := by rw [h]
  have hsaved : d.frame.saved = c.frame.saved := by rw [h]
  have hfir : d.frame.control.fir = c.frame.control.fir := by rw [h]
  have hresume : d.frame.resumeCapable = c.frame.resumeCapable := by rw [h]
  have hflags : d.frame.flags = c.frame.flags := by rw [h]
  exact ⟨hdual, hsaved, hfir, hresume, by rw [show d.flags = c.flags from hflags]⟩

variable {c d : Cpu β}

theorem dualCapable (h : SameMode c d) : d.flags.dualCapable = c.flags.dualCapable :=
  (congrArg StepFlags.dualCapable h.flags :)

theorem highHalf (h : SameMode c d) : d.flags.highHalf = c.flags.highHalf :=
  (congrArg StepFlags.highHalf h.flags :)

theorem pairing (h : SameMode c d) : d.flags.dual = c.flags.dual :=
  (congrArg StepFlags.dual h.flags :)

theorem dualRestored (h : SameMode c d) : d.flags.dualRestored = c.flags.dualRestored :=
  (congrArg StepFlags.dualRestored h.flags :)

end SameMode

theorem Effect.sameMode {c d : Cpu β} (h : Effect c d) : SameMode c d := by
  cases h with
  | memory mmu icache board => exact ⟨rfl, rfl, rfl, rfl, rfl⟩
  | compute hframe => exact .of_frame hframe
  | jump target => exact ⟨rfl, rfl, rfl, rfl, rfl⟩
  | readControl reg =>
      cases reg with
      | fir =>
          dsimp only [Cpu.readControl]
          split <;> exact ⟨rfl, rfl, rfl, rfl, rfl⟩
      | _ => exact .refl c
  | writeControl reg v =>
      obtain ⟨control, mmu, icache, fpu, order, heq, hfir, -⟩ := c.writeControl_cases reg v
      rw [heq]
      exact ⟨rfl, rfl, hfir, rfl, rfl⟩

theorem Effects.sameMode {c d : Cpu β} (h : Effects c d) : SameMode c d := by
  induction h with
  | refl => exact .refl c
  | tail _ heffect ih => exact ih.trans heffect.sameMode

/-- An effect that moves the program counter says so. -/
theorem Effect.straight {c d : Cpu β} (h : Effect c d) :
    d.flags.pcUpdated = true ∨ d.flags.pcUpdated = c.flags.pcUpdated ∧ d.pc = c.pc := by
  cases h with
  | memory mmu icache board => exact .inr ⟨rfl, rfl⟩
  | compute hframe =>
      have hflags : d.frame.flags = c.frame.flags := by rw [hframe]
      have hpc : d.frame.pc = c.frame.pc := by rw [hframe]
      exact .inr ⟨congrArg StepFlags.pcUpdated hflags, hpc⟩
  | jump target => exact .inl rfl
  | readControl reg =>
      cases reg with
      | fir =>
          dsimp only [Cpu.readControl]
          split <;> exact .inr ⟨rfl, rfl⟩
      | _ => exact .inr ⟨rfl, rfl⟩
  | writeControl reg v =>
      obtain ⟨control, mmu, icache, fpu, order, heq, -, -⟩ := c.writeControl_cases reg v
      rw [heq]
      exact .inr ⟨rfl, rfl⟩

/-- An instruction that has not jumped is where it was. -/
theorem Effects.straight {c d : Cpu β} (h : Effects c d) (hd : d.flags.pcUpdated = false) :
    d.flags.pcUpdated = c.flags.pcUpdated ∧ d.pc = c.pc := by
  induction h with
  | refl => exact ⟨rfl, rfl⟩
  | tail _ heffect ih =>
      obtain hupdated | ⟨hflag, hpc⟩ := heffect.straight
      · rw [hd] at hupdated
        cases hupdated
      · obtain ⟨hflag', hpc'⟩ := ih (hflag.symm.trans hd)
        exact ⟨hflag.trans hflag', hpc.trans hpc'⟩

/-- What a trap has saved, and what a step has decided when it began. -/
structure SameContext (c d : Cpu β) : Prop where
  saved : d.saved = c.saved
  fir : d.control.fir = c.control.fir
  pairing : d.flags.dual = c.flags.dual

theorem SameContext.refl (c : Cpu β) : SameContext c c := ⟨rfl, rfl, rfl⟩

theorem SameContext.trans {c d e : Cpu β} (h : SameContext c d) (h' : SameContext d e) :
    SameContext c e :=
  ⟨h'.saved.trans h.saved, h'.fir.trans h.fir, h'.pairing.trans h.pairing⟩

theorem Move.sameContext {c d : Cpu β} (h : Move c d) : SameContext c d := by
  cases h with
  | effect h => exact ⟨h.sameMode.saved, h.sameMode.fir, h.sameMode.pairing⟩
  | place pc updated => exact ⟨rfl, rfl, rfl⟩
  | noteIssue pc i => exact ⟨rfl, rfl, rfl⟩
  | retire => exact ⟨rfl, rfl, rfl⟩
  | fault kind => exact ⟨rfl, rfl, rfl⟩
  | returnFromTrap => exact ⟨rfl, rfl, rfl⟩

theorem Moves.sameContext {c d : Cpu β} (h : Moves c d) : SameContext c d := by
  induction h with
  | refl => exact .refl c
  | tail _ hmove ih => exact ih.trans hmove.sameContext

/-- Instructions count nothing. -/
theorem Effect.stats_eq {c d : Cpu β} (h : Effect c d) : d.stats = c.stats := by
  cases h with
  | memory mmu icache board => rfl
  | compute hframe => exact congrArg (·.stats) hframe
  | jump target => rfl
  | readControl reg =>
      cases reg with
      | fir =>
          dsimp only [Cpu.readControl]
          split <;> rfl
      | _ => rfl
  | writeControl reg v =>
      obtain ⟨control, mmu, icache, fpu, order, heq, -, -⟩ := c.writeControl_cases reg v
      rw [heq]

theorem Effects.stats_eq {c d : Cpu β} (h : Effects c d) : d.stats = c.stats := by
  induction h with
  | refl => rfl
  | tail _ heffect ih => exact heffect.stats_eq.trans ih

/-- No trap is entered while instructions run. -/
theorem Move.traps_eq {c d : Cpu β} (h : Move c d) : d.stats.traps = c.stats.traps := by
  cases h with
  | effect h => rw [h.stats_eq]
  | _ => rfl

theorem Moves.traps_eq {c d : Cpu β} (h : Moves c d) : d.stats.traps = c.stats.traps := by
  induction h with
  | refl => rfl
  | tail _ hmove ih => exact hmove.traps_eq.trans ih

/-- The interrupt pin and the listing belong to the host. -/
structure SameHost (c d : Cpu β) : Prop where
  irqLine : d.irqLine = c.irqLine
  listing : d.listing = c.listing

theorem Move.sameHost {c d : Cpu β} (h : Move c d) : SameHost c d := by
  cases h with
  | effect h =>
      cases h with
      | compute hframe => exact ⟨congrArg (·.irqLine) hframe, congrArg (·.listing) hframe⟩
      | readControl reg =>
          cases reg with
          | fir =>
              dsimp only [Cpu.readControl]
              split <;> exact ⟨rfl, rfl⟩
          | _ => exact ⟨rfl, rfl⟩
      | writeControl reg v =>
          obtain ⟨control, mmu, icache, fpu, order, heq, -, -⟩ := c.writeControl_cases reg v
          rw [heq]
          exact ⟨rfl, rfl⟩
      | _ => exact ⟨rfl, rfl⟩
  | _ => exact ⟨rfl, rfl⟩

theorem Moves.sameHost {c d : Cpu β} (h : Moves c d) : SameHost c d := by
  induction h with
  | refl => exact ⟨rfl, rfl⟩
  | tail _ hmove ih =>
      exact ⟨hmove.sameHost.irqLine.trans ih.irqLine, hmove.sameHost.listing.trans ih.listing⟩

section Pairing

variable [Bus β]

theorem Fetched.pairing_enter {c n : Cpu β} {i : Instruction} (h : Fetched c i n)
    (p : SlotPlan) : (p.enter n).flags.dual = c.flags.dual := by
  have hmoves := h.moves.trans (Moves.of_frame (p.frame_enter n))
  exact (Moves.sameContext hmoves).pairing

theorem executeOne_pairing {depth : Nat} {c m : Cpu β} (h : executeOne depth c = .ok () m) :
    m.flags.dual = c.flags.dual := by
  have hmoves := executeOne_moves depth c
  rw [h] at hmoves
  exact (Moves.sameContext hmoves).pairing

end Pairing

end I860
