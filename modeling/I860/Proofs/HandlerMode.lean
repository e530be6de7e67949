import I860.Proofs.Steps

/-!
# The mode a trap handler starts in

A trap handler starts in single issue, and no compare is pending. It ought to
start as if nothing had been going on before. There is one thing that it
inherits: a return from a trap leaves word for the next step that the pair it
returns to had asked for dual mode (`Cpu.resumeCapable`), and entering the
handler does not take this back. So a step that both leaves a handler and
enters one, by an interrupt at its end or by a fault behind the return, hands
the word on to the handler. `stale_request_reaches_handler` is such a step.

`handler_mode` says exactly when this happens, and what it does: the first
step of the handler ends as if one of its own words had asked for dual mode.
For this the words that a step executes have to be named. `wordsOfPair` lists
them with their addresses, those in delay slots included, in order.
-/

namespace I860

variable {β : Type}

/-! ## Requests left over -/

/-- A request for dual mode is waiting only if this step has left a handler,
and then it is the one that was saved. -/
def RequestSaved (c : Cpu β) : Prop :=
  c.resumeCapable = (c.flags.dualRestored && c.saved.capable)

theorem Move.requestSaved {c d : Cpu β} (h : Move c d) (hc : RequestSaved c) :
    RequestSaved d := by
  unfold RequestSaved at hc ⊢
  cases h with
  | effect h => rw [h.sameMode.resumeCapable, h.sameMode.dualRestored, h.sameMode.saved, hc]
  | place pc updated => exact hc
  | noteIssue pc i => exact hc
  | retire => exact hc
  | fault kind => exact hc
  | returnFromTrap => rfl

/-- How far dual mode is, where a run started in `mode`. -/
def ModeRestored (mode : DualMode) (c : Cpu β) : Prop :=
  c.flags.dualRestored = false → c.dual = mode

theorem Move.modeRestored {mode : DualMode} {c d : Cpu β} (h : Move c d)
    (hc : ModeRestored mode c) : ModeRestored mode d := by
  unfold ModeRestored at hc ⊢
  cases h with
  | effect h => rwa [h.sameMode.dualRestored, h.sameMode.dual]
  | place pc updated => exact hc
  | noteIssue pc i => exact hc
  | retire => exact hc
  | fault kind => exact hc
  | returnFromTrap =>
      intro hkept
      cases hkept

/-! ## The words that a run executes -/

/-- A word that a run has fetched for execution, and its address. -/
abbrev IssuedWord := VirtAddr × Instruction

/-- A word in a low half that asks for dual-instruction mode. -/
def IssuedWord.asks (word : IssuedWord) : Bool :=
  !word.1.getLsbD 2 && word.2.asksForDual

/-- The words executed in a slot, given those that one instruction stands
for. -/
def wordsOfSlot (words : Cpu β → List IssuedWord) (one : Exec β Unit) (c : Cpu β) :
    List IssuedWord :=
  words c ++
    if c.flags.dual then
      match one c with
      | .ok _ d => words d
      | .error _ _ => []
    else []

/-- A program notes that dual mode was asked for exactly if one of the words
that it executes does. -/
def NotesRequests (one : Exec β Unit) (words : Cpu β → List IssuedWord) : Prop :=
  ∀ c, (finalState (one c)).flags.dualCapable =
    (c.flags.dualCapable || (words c).any IssuedWord.asks)

/-- Two programs in sequence, the second run where the first completes. -/
theorem NotesRequests.seq {one : Exec β Unit} {words : Cpu β → List IssuedWord}
    (h : NotesRequests one words) :
    NotesRequests (do one; one) fun c =>
      words c ++
        match one c with
        | .ok _ d => words d
        | .error _ _ => [] := by
  intro c
  have hfirst := h c
  rw [Exec.bind_apply]
  dsimp only
  rw [List.any_append, ← Bool.or_assoc, ← hfirst]
  cases one c with
  | ok _ d => exact h d
  | error e d => rw [List.any_nil, Bool.or_false]

theorem NotesRequests.slot {one : Exec β Unit} {words : Cpu β → List IssuedWord}
    (h : NotesRequests one words) :
    NotesRequests (delaySlot one) fun c => wordsOfSlot words one c.inSlot := by
  intro c
  have hback : (finalState (delaySlot one c)).flags.dualCapable =
      (finalState ((if c.flags.dual then (do one; one) else one : Exec β Unit)
        c.inSlot)).flags.dualCapable := by
    rw [delaySlot_apply]
    cases (if c.flags.dual then (do one; one) else one : Exec β Unit) c.inSlot <;> rfl
  have hpairing : c.inSlot.flags.dual = c.flags.dual := rfl
  dsimp only [wordsOfSlot]
  rw [hback, hpairing]
  split
  · exact h.seq c.inSlot
  · rw [List.append_nil]
    exact h c.inSlot

theorem SlotPlan.dualCapable_leave (p : SlotPlan) (d : Cpu β) :
    (p.leave d).flags.dualCapable = d.flags.dualCapable := by
  obtain ⟨written, target, returns, loop⟩ := p
  cases returns <;> cases loop <;> rfl

variable [Bus β]

/-- The words executed for the instruction at the program counter: itself, and
those in its slot. -/
def wordsOfOne : (depth : Nat) → Cpu β → List IssuedWord
  | 0, _ => []
  | depth + 1, c =>
      match fetch c.pc c with
      | .error _ _ => []
      | .ok w d =>
          let i : Instruction := ⟨w⟩
          let n := d.noteIssue c.pc i
          (c.pc, i) ::
            match slotPlan? i n with
            | none => []
            | some p => wordsOfSlot (wordsOfOne depth) (executeOne depth) (p.enter n).inSlot

/-- The words executed for the pair at the program counter. -/
def wordsOfPair (depth : Nat) (c : Cpu β) : List IssuedWord :=
  wordsOfOne depth c ++
    match executeOne depth c with
    | .ok _ m =>
        if !c.pc.getLsbD 2 && !m.flags.pcUpdated then wordsOfOne depth m else []
    | .error _ _ => []

theorem wordsOfOne_of_fetched {depth : Nat} {c n : Cpu β} {i : Instruction}
    (h : Fetched c i n) :
    wordsOfOne (depth + 1) c =
      (c.pc, i) ::
        match slotPlan? i n with
        | none => []
        | some p => wordsOfSlot (wordsOfOne depth) (executeOne depth) (p.enter n).inSlot := by
  obtain ⟨d, hfetch, -, rfl⟩ := h
  rw [wordsOfOne, hfetch]

theorem Fetched.dualCapable {c n : Cpu β} {i : Instruction} (h : Fetched c i n) :
    n.flags.dualCapable = (c.flags.dualCapable || IssuedWord.asks (c.pc, i)) := by
  obtain ⟨d, -, ⟨mmu, icache, board, -, rfl⟩, rfl⟩ := h
  rfl

theorem executeOne_notesRequests (depth : Nat) :
    NotesRequests (executeOne (β := β) depth) (wordsOfOne depth) := by
  induction depth with
  | zero =>
      intro c
      rw [wordsOfOne, List.any_nil, Bool.or_false]
      rfl
  | succ depth ih =>
      intro c
      have hissue := executeOne_issue depth c
      generalize hr : executeOne (depth + 1) c = r at hissue
      cases hissue with
      | unfetched kind hlooked hfailed =>
          obtain ⟨mmu, icache, board, -, rfl⟩ := hlooked
          rw [wordsOfOne, hfailed, List.any_nil, Bool.or_false]
          rfl
      | refused kind hfetched hplan hlooked =>
          obtain ⟨mmu, icache, board, -, rfl⟩ := hlooked
          rw [wordsOfOne_of_fetched hfetched, hplan, List.any_cons, List.any_nil,
            Bool.or_false, ← hfetched.dualCapable]
          rfl
      | completed hfetched hplan heffects =>
          rw [wordsOfOne_of_fetched hfetched, hplan, List.any_cons, List.any_nil,
            Bool.or_false, ← hfetched.dualCapable]
          exact heffects.sameMode.dualCapable
      | skipped hfetched hplan =>
          rw [wordsOfOne_of_fetched hfetched, hplan, List.any_cons, List.any_nil,
            Bool.or_false, ← hfetched.dualCapable]
          rfl
      | @branched i n d p hfetched hplan hran =>
          have hslot := ih.slot (p.enter n)
          rw [hran] at hslot
          rw [wordsOfOne_of_fetched hfetched, hplan, List.any_cons, ← Bool.or_assoc,
            ← hfetched.dualCapable]
          have henter := (SameMode.of_frame (p.frame_enter n)).dualCapable
          rw [← henter, ← hslot]
          exact p.dualCapable_leave d
      | @slotFault i n d p e hfetched hplan hran =>
          have hslot := ih.slot (p.enter n)
          rw [hran] at hslot
          rw [wordsOfOne_of_fetched hfetched, hplan, List.any_cons, ← Bool.or_assoc,
            ← hfetched.dualCapable]
          have henter := (SameMode.of_frame (p.frame_enter n)).dualCapable
          rw [← henter, ← hslot]
          exact (SameMode.of_frame (p.frame_undo n d)).dualCapable

theorem executePair_notesRequests (depth : Nat) :
    NotesRequests (executePair (β := β) depth) (wordsOfPair depth) := by
  intro c
  have hfirst := executeOne_notesRequests depth c
  unfold wordsOfPair
  rw [executePair_apply, List.any_append, ← Bool.or_assoc, ← hfirst]
  cases executeOne depth c with
  | error e m => rw [List.any_nil, Bool.or_false]
  | ok _ m =>
      dsimp only
      split
      · exact executeOne_notesRequests depth m
      · rw [List.any_nil, Bool.or_false]

/-! ## The first step of a handler -/

/-- At the end of the run of a step. -/
theorem Cpu.run_resumeCapable (c : Cpu β) :
    (finalState (executePair maxNesting c.beginStep)).resumeCapable =
      ((finalState (executePair maxNesting c.beginStep)).flags.dualRestored &&
        c.saved.capable) := by
  have hmoves := executePair_moves maxNesting c.beginStep
  have hrun := Moves.preserves Move.requestSaved hmoves (show RequestSaved c.beginStep from rfl)
  have hsaved := (Moves.sameContext hmoves).saved
  unfold RequestSaved at hrun
  rw [hrun, hsaved]
  rfl

/-- A handler starts in single issue with no compare pending. -/
theorem Cpu.step_into_handler {c : Cpu β} (henters : c.entersTrap = true) :
    c.step.dual = .none ∧ c.step.comparePending = false ∧
      c.step.resumeCapable = (c.leavesTrap && c.saved.capable) := by
  have hrun := c.run_resumeCapable
  have hend := c.step_end
  generalize c.step = s at hend
  cases hend with
  | completed hran hquiet => simp [entersTrap, hran, hquiet] at henters
  | @interrupted d hran haccepts =>
      refine ⟨rfl, rfl, ?_⟩
      rw [hran] at hrun
      rw [leavesTrap, hran]
      exact d.resumeCapable_advanceDual.trans hrun
  | faulted hran =>
      refine ⟨rfl, rfl, ?_⟩
      rw [hran] at hrun
      rw [leavesTrap, hran]
      exact hrun
  | endless hran => simp [entersTrap, hran] at henters

/-- A step that leaves no handler moves dual mode on by what was left over and
by the words that it executes. -/
theorem Cpu.step_dual {c : Cpu β} (hcompletes : c.completes = true)
    (hstays : c.leavesTrap = false) :
    c.step.dual =
      c.dual.next
        (c.resumeCapable || (wordsOfPair maxNesting c.beginStep).any IssuedWord.asks) := by
  obtain ⟨d, hran, hstep⟩ := Cpu.step_of_completes hcompletes
  have hnoted := executePair_notesRequests maxNesting c.beginStep
  have hmode := Moves.preserves Move.modeRestored (executePair_moves maxNesting c.beginStep)
    (show ModeRestored c.dual c.beginStep from fun _ => rfl)
  rw [hran] at hnoted hmode
  have hkept : d.flags.dualRestored = false := by
    unfold leavesTrap at hstays
    rw [hran] at hstays
    exact hstays
  have hdual : d.dual = c.dual := hmode hkept
  have hcapable : d.flags.dualCapable =
      (c.resumeCapable || (wordsOfPair maxNesting c.beginStep).any IssuedWord.asks) := hnoted
  rw [hstep, ← hcapable, ← hdual, advanceDual, hkept]
  rfl

/-- A trap handler starts in single issue with no compare pending. A request
for dual mode is waiting exactly if the step that entered the handler had left
one before, and the pair it was to return to had made the request. The first
step of the handler, unless it is a return itself, then takes the request for
one of its own. -/
theorem handler_mode {c : Cpu β} (henters : c.entersTrap = true) :
    c.step.dual = .none ∧ c.step.comparePending = false ∧
      c.step.resumeCapable = (c.leavesTrap && c.saved.capable) ∧
      ∀ h, Between c.step h → h.completes = true → h.leavesTrap = false →
        h.step.dual =
          DualMode.none.next
            (c.leavesTrap && c.saved.capable ||
              (wordsOfPair maxNesting h.beginStep).any IssuedWord.asks) := by
  obtain ⟨hdual, hpending, hresume⟩ := Cpu.step_into_handler henters
  refine ⟨hdual, hpending, hresume, ?_⟩
  intro h hbetween hcompletes hstays
  have hsame := Between.sameMode hbetween
  rw [Cpu.step_dual hcompletes hstays, hsame.dual, hsame.resumeCapable, hdual, hresume]

/-- `trap` in the high half of a pair whose low half asks for dual mode, and a
handler that returns behind it in its second step. -/
def trapBesideRequest : Cpu OpenMemory :=
  (Cpu.before 0x1000#32
    [(0x1000#32,
      [0xe4040010#32, 0x38202000#32, 0xb0000200#32, 0x44000000#32, 0xe4000000#32,
        0xe0000000#32]),
      (0xffffff00#32, [0xe4071010#32, 0xe0000000#32, 0x40003800#32, 0xe0000000#32])]).step

/-- The first step of the handler of that trap. -/
theorem handler_mode_of_trap :
    trapBesideRequest.entersTrap = true ∧ trapBesideRequest.step.resumeCapable = false ∧
      trapBesideRequest.step.step.dual = .none := by
  have henters : trapBesideRequest.entersTrap = true := by decide +kernel
  have hcompletes : trapBesideRequest.step.completes = true := by decide +kernel
  have hstays : trapBesideRequest.step.leavesTrap = false := by decide +kernel
  have hclean : (trapBesideRequest.leavesTrap && trapBesideRequest.saved.capable) = false := by
    decide +kernel
  have hwords : (wordsOfPair maxNesting trapBesideRequest.step.beginStep).any
      IssuedWord.asks = false := by
    decide +kernel
  obtain ⟨-, -, hresume, hfirst⟩ := handler_mode henters
  have hdual := hfirst trapBesideRequest.step .refl hcompletes hstays
  rw [hclean, hwords] at hdual
  exact ⟨henters, hresume.trans hclean, hdual⟩

/-- The step that returns from that handler while the interrupt pin is up. -/
def interruptedReturn : Cpu OpenMemory := trapBesideRequest.step.step.setIrqLine true

/-- The next handler finds the request of the pair that the first trap had
interrupted, and its first step, none of whose words asks for it, moves on to
dual mode. -/
theorem stale_request_reaches_handler :
    interruptedReturn.entersTrap = true ∧
      interruptedReturn.step.resumeCapable = true ∧
      interruptedReturn.step.completes = true ∧
      interruptedReturn.step.leavesTrap = false ∧
      (wordsOfPair maxNesting interruptedReturn.step.beginStep).any
        IssuedWord.asks = false ∧
      interruptedReturn.step.step.dual = .temp := by
  decide +kernel

end I860
