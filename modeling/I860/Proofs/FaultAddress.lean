import I860.Proofs.Course
import I860.Proofs.FaultPlace

/-!
# The address of a fault

A step that faults tells the handler where, in the fault instruction register:
the instruction that has failed, or what follows the outermost branch if that
instruction is in a delay slot. The first read of the register gets this
address, however late it comes, and any later read gets the address of the
instruction that reads.

Which read is the first is a question about the log of a run. `LatchLaw` says
what the reads in a stretch of the log get, given whether the address is still
held where the stretch begins, and two stretches compose (`LatchLaw.trans`).
Only two things touch what is held: an instruction that reads the register,
and the entry into a handler. The count of traps tells whether there is one of
the latter in a course, so a course at whose end the count is what it was
keeps the law (`Course.latch`).
-/

namespace I860

variable {β : Type}

/-! ## Reads of the register -/

/-- The instruction reads the fault instruction register. -/
def Instruction.readsFaultAddr (i : Instruction) : Bool :=
  i.op == .ldC && ControlReg.ofNumber? i.src2 == some .fir

namespace Executed

def address (x : Executed β) : VirtAddr := x.before.pc

/-- The destination of the instruction has got `v`, and no other data register
has changed. -/
def Delivers (x : Executed β) (v : Word) : Prop :=
  x.after.regs = (x.before.writeInt x.word.dest v).regs

end Executed

def faultReads (log : List (Executed β)) : List (Executed β) :=
  log.filter fun x => x.word.readsFaultAddr

theorem faultReads_append (log log' : List (Executed β)) :
    faultReads (log ++ log') = faultReads log ++ faultReads log' :=
  List.filter_append log log'

/-- What the reads get on the way from `c` to `d`: the first gets the address
of the fault if it is held, and all others get their own address. -/
structure LatchLaw (c : Cpu β) (reads : List (Executed β)) (d : Cpu β) : Prop where
  fir : d.control.fir = c.control.fir
  held : d.faultAddrHeld = (c.faultAddrHeld && reads.isEmpty)
  first : ∀ x rest, reads = x :: rest →
    x.Delivers (if c.faultAddrHeld then c.control.fir else x.address)
  later : ∀ x rest, reads = x :: rest → ∀ y ∈ rest, y.Delivers y.address

namespace LatchLaw

variable {c d e : Cpu β} {reads reads' : List (Executed β)}

theorem of_kept (hfir : d.control.fir = c.control.fir)
    (hheld : d.faultAddrHeld = c.faultAddrHeld) : LatchLaw c [] d := by
  refine ⟨hfir, ?_, fun _ _ h => ?_, fun _ _ h => ?_⟩
  · rw [hheld, List.isEmpty_nil, Bool.and_true]
  · cases h
  · cases h

theorem trans (h : LatchLaw c reads d) (h' : LatchLaw d reads' e) :
    LatchLaw c (reads ++ reads') e := by
  have hfir := h'.fir.trans h.fir
  have hheld := h'.held
  rw [h.held] at hheld
  cases reads with
  | nil =>
      have hsame : d.faultAddrHeld = c.faultAddrHeld := by
        rw [h.held, List.isEmpty_nil, Bool.and_true]
      refine ⟨hfir, ?_, fun x rest hx => ?_, fun x rest hx => h'.later x rest hx⟩
      · rw [hheld, List.isEmpty_nil, Bool.and_true]
        rfl
      · rw [← hsame, ← h.fir]
        exact h'.first x rest hx
  | cons x rest =>
      have hreleased : d.faultAddrHeld = false := by
        rw [h.held, List.isEmpty_cons, Bool.and_false]
      refine ⟨hfir, ?_, fun y rest' hy => ?_, fun y rest' hy z hz => ?_⟩
      · rw [hheld]
        simp
      · cases hy
        exact h.first x rest rfl
      · cases hy
        obtain hz | hz := List.mem_append.1 hz
        · exact h.later x rest rfl z hz
        · cases reads' with
          | nil => cases hz
          | cons w rest' =>
              obtain rfl | hz := List.mem_cons.1 hz
              · have hfirst := h'.first z rest' rfl
                rwa [hreleased] at hfirst
              · exact h'.later w rest' rfl z hz

end LatchLaw

/-! ## What touches what is held -/

theorem Execute.faultAddrHeld_ldC {i : Instruction}
    (hother : ControlReg.ofNumber? i.src2 ≠ some .fir) (c : Cpu β) :
    (ldC i c).faultAddrHeld = c.faultAddrHeld := by
  unfold ldC
  split
  · rfl
  · next reg hreg =>
      cases reg with
      | fir => exact absurd hreg hother
      | _ => rfl

theorem Execute.faultAddrHeld_stC (i : Instruction) (c : Cpu β) :
    (stC i c).faultAddrHeld = c.faultAddrHeld := by
  unfold stC
  split
  · rfl
  · next reg _ =>
      obtain ⟨control, mmu, icache, fpu, order, heq, -, -⟩ :=
        c.writeControl_cases reg (c.readInt i.src1)
      rw [heq]

section Run

variable [Bus β] {c d : Cpu β}

theorem execute_faultAddrHeld {i : Instruction} (slot : Exec β Unit)
    (straight : i.op.isDelayedBranch = false) (hother : i.readsFaultAddr = false) (c : Cpu β) :
    Ends c (fun _ d => d.faultAddrHeld = c.faultAddrHeld) (execute slot i c) := by
  have hframe : ∀ {d e : Cpu β}, e.frame = d.frame → e.faultAddrHeld = d.faultAddrHeld :=
    fun h => congrArg (·.faultAddrHeld) h
  have hlooked : ∀ {d : Cpu β}, LookedUp c d → d.faultAddrHeld = c.faultAddrHeld := by
    rintro d ⟨mmu, icache, board, -, rfl⟩
    rfl
  have hstored : ∀ {d : Cpu β}, Stored c d → d.faultAddrHeld = c.faultAddrHeld := by
    rintro d ⟨mmu, icache, board, rfl⟩
    rfl
  have hbranchIf : ∀ taken target,
      (Execute.branchIf taken target c).faultAddrHeld = c.faultAddrHeld := by
    intro taken target
    unfold Execute.branchIf
    split <;> rfl
  unfold execute
  cases hop : i.op <;> dsimp only
  case bri | calli | br | call | bcT | bncT | bla =>
    simp [hop, Op.isDelayedBranch] at straight
  case illegal | trap => exact .raise (by decide) (.refl c)
  case lock | unlock => exact .ok rfl
  case intovr => exact intovr_ends c rfl
  case ldC =>
    refine .ok (Execute.faultAddrHeld_ldC (fun hfir => ?_) c)
    simp [Instruction.readsFaultAddr, hop, hfir] at hother
  case stC => exact .ok (Execute.faultAddrHeld_stC i c)
  case ldInt => exact ldInt_ends i c fun _ _ hd => (hlooked hd :)
  case stInt => exact stInt_ends i c fun _ hd => hstored hd
  case fld => exact fld_ends i c fun _ _ hd => (hframe (by simp)).trans (hlooked hd)
  case pfld => exact pfld_ends i c fun _ _ hd => (hframe (by simp)).trans (hlooked hd)
  case fst =>
    exact fst_ends i c fun _ _ hd => (hframe (Execute.frame_autoIncrement ..)).trans (hstored hd)
  case pstD =>
    exact pstD_ends i c fun _ _ _ hd =>
      (hframe (Execute.frame_autoIncrement ..)).trans (hstored hd :)
  case bc | bnc | bte | btne => exact .ok (hbranchIf _ _)
  case dualOp => exact guarded_ends c _ rfl
  case frcp | frsqr => exact reciprocal_ends i c _ fun _ => rfl
  case fmul | pfmul3 | fadd | fsub => exact guarded_ends c _ (hframe (Execute.frame_binary ..))
  case fmlow => exact guarded_ends c _ rfl
  case famov => exact guarded_ends c _ (hframe (Execute.frame_issue ..))
  -- The rest only compute.
  all_goals exact .ok (hframe (by simp))

/-- What an instruction adds to the log obeys the law. -/
theorem LatchLaw.of_execute {slot : Exec β Unit} {i : Instruction}
    (straight : i.op.isDelayedBranch = false) (ran : execute slot i c = .ok () d) :
    LatchLaw c (faultReads [⟨i, c, d⟩]) d := by
  have hfir : d.control.fir = c.control.fir :=
    ((execute_ends i c slot straight).completed ran).sameMode.fir
  cases hreads : i.readsFaultAddr with
  | false =>
      have hlog : faultReads [⟨i, c, d⟩] = [] := by simp [faultReads, hreads]
      rw [hlog]
      exact .of_kept hfir ((execute_faultAddrHeld slot straight hreads c).completed ran)
  | true =>
      have hlog : faultReads [⟨i, c, d⟩] = [⟨i, c, d⟩] := by simp [faultReads, hreads]
      obtain ⟨hop, hreg⟩ : i.op = .ldC ∧ ControlReg.ofNumber? i.src2 = some .fir := by
        simpa [Instruction.readsFaultAddr] using hreads
      have hd : d = Execute.ldC i c := by
        unfold execute at ran
        rw [hop] at ran
        cases ran
        rfl
      rw [Execute.ldC, hreg] at hd
      dsimp only [Cpu.readControl] at hd
      rw [hlog]
      refine ⟨hfir, ?_, fun x rest hx => ?_, fun x rest hx y hy => ?_⟩
      · rw [hd, List.isEmpty_cons, Bool.and_false]
        cases hheld : c.faultAddrHeld <;> simp [Cpu.writeInt, hheld]
      · cases hx
        unfold Executed.Delivers
        dsimp only
        rw [hd]
        cases c.faultAddrHeld <;> rfl
      · cases hx
        cases hy

/-- Between instructions the address is held or released by nothing but the
entry into a handler. -/
theorem Interlude.traps_lt_or_kept (h : Interlude c d) :
    c.stats.traps < d.stats.traps ∨
      d.stats.traps = c.stats.traps ∧ d.control.fir = c.control.fir ∧
        d.faultAddrHeld = c.faultAddrHeld := by
  cases h with
  | fetch pc =>
      obtain ⟨m, ⟨mmu, icache, board, -, rfl⟩, hm | ⟨kind, hm⟩⟩ := fetch_looked pc c <;>
        (rw [hm]; exact .inr ⟨rfl, rfl, rfl⟩)
  | refuse hstraight hran =>
      obtain ⟨m, kind, ⟨mmu, icache, board, -, rfl⟩, rfl⟩ := refuse_looked hstraight hran
      exact .inr ⟨rfl, rfl, rfl⟩
  | advanceDual =>
      unfold Cpu.advanceDual
      split <;> exact .inr ⟨rfl, rfl, rfl⟩
  | enterTrap t => exact .inl (Nat.lt_succ_self _)
  | _ => exact .inr ⟨rfl, rfl, rfl⟩

/-- A course on which no handler is entered obeys the law. -/
theorem Course.latch {log : List (Executed β)} (h : Course c log d) :
    c.stats.traps < d.stats.traps ∨
      d.stats.traps = c.stats.traps ∧ LatchLaw c (faultReads log) d := by
  induction h with
  | stop c => exact .inr ⟨rfl, .of_kept rfl rfl⟩
  | interlude hfirst _ ih =>
      obtain hmore | ⟨hsame, hfir, hheld⟩ := hfirst.traps_lt_or_kept
      · left
        obtain hrest | ⟨hrest, -⟩ := ih <;> omega
      · obtain hmore | ⟨hrest, hlaw⟩ := ih
        · exact .inl (hsame ▸ hmore)
        · exact .inr ⟨hrest.trans hsame, (LatchLaw.of_kept hfir hheld).trans hlaw⟩
  | @executed c d e log slot i hstraight hran _ ih =>
      have htraps : d.stats.traps = c.stats.traps := by
        rw [Effects.stats_eq ((execute_ends i c slot hstraight).completed hran)]
      rw [← List.singleton_append, faultReads_append]
      obtain hmore | ⟨hrest, hlaw⟩ := ih
      · exact .inl (htraps ▸ hmore)
      · exact .inr ⟨hrest.trans htraps, (LatchLaw.of_execute hstraight hran).trans hlaw⟩

/-! ## Steps and runs -/

/-- The reads in a step obey the law, up to where it ends or faults. -/
theorem step_reads (c : Cpu β) : ∃ d, LatchLaw c (faultReads (executedByStep c)) d := by
  have hcourse := executePair_course maxNesting c.beginStep
  have htraps := (executePair_moves maxNesting c.beginStep).traps_eq
  obtain hmore | ⟨-, hfir, hheld, hfirst, hlater⟩ := hcourse.latch
  · exact absurd htraps (Nat.ne_of_gt hmore)
  · unfold executedByStep
    split
    · exact ⟨c, .of_kept rfl rfl⟩
    · exact ⟨_, hfir, hheld, hfirst, hlater⟩

theorem step_latch (hstays : c.entersTrap = false) :
    LatchLaw c (faultReads (executedByStep c)) c.step := by
  have htraps : c.step.stats.traps = c.stats.traps := by
    obtain ⟨d, hran, hstep⟩ | ⟨-, hstep⟩ := Cpu.step_of_stays hstays
    · have hrun := (executePair_moves maxNesting c.beginStep).traps_eq
      rw [hran] at hrun
      rw [hstep, Cpu.advanceDual]
      split <;> exact hrun
    · rw [hstep]
  obtain hmore | ⟨-, hlaw⟩ := (step_course c).latch
  · exact absurd htraps (Nat.ne_of_gt hmore)
  · exact hlaw

theorem HostAction.latch (h : HostAction c d) : LatchLaw c [] d := by
  cases h with
  | outside houtside => cases houtside <;> exact .of_kept rfl rfl
  | writeControl reg v =>
      obtain ⟨control, mmu, icache, fpu, order, heq, hfir, -⟩ := c.writeControl_cases reg v
      rw [heq]
      exact .of_kept hfir rfl
  | inspectInstruction pc =>
      obtain ⟨psr, hstate⟩ := c.inspectInstruction_state pc
      rw [hstate]
      obtain ⟨m, ⟨mmu, icache, board, -, rfl⟩, hm | ⟨kind, hm⟩⟩ := fetch_looked pc c <;>
        (rw [hm]; exact .of_kept rfl rfl)
  | withFloatUnit u => exact .of_kept rfl rfl

/-- A run of whole steps without a trap or an interrupt, and the instructions
executed on the way. -/
inductive TrapFree (start : Cpu β) : List (Executed β) → Cpu β → Prop
  | begin : TrapFree start [] start
  | step {log : List (Executed β)} {c : Cpu β} (run : TrapFree start log c)
      (stays : c.entersTrap = false) : TrapFree start (log ++ executedByStep c) c.step
  | host {log : List (Executed β)} {c d : Cpu β} (run : TrapFree start log c)
      (action : HostAction c d) : TrapFree start log d

theorem TrapFree.latch {start : Cpu β} {log : List (Executed β)} (h : TrapFree start log c) :
    LatchLaw start (faultReads log) c := by
  induction h with
  | begin => exact .of_kept rfl rfl
  | step _ hstays ih =>
      rw [faultReads_append]
      exact ih.trans (step_latch hstays)
  | host _ haction ih =>
      have hall := ih.trans haction.latch
      rwa [List.append_nil] at hall

/-! ## What is in a log has been fetched -/

def Executed.WasFetched (x : Executed β) : Prop :=
  ∃ s, Fetched s x.word x.before ∧ s.pc = x.address

theorem Fetched.wasFetched {i : Instruction} {n : Cpu β} (h : Fetched c i n) (d : Cpu β) :
    Executed.WasFetched ⟨i, n, d⟩ :=
  ⟨c, h, h.pc_eq.symm⟩

theorem executedByOne_wasFetched (depth : Nat) (c : Cpu β) :
    ∀ x ∈ executedByOne depth c, x.WasFetched := by
  induction depth generalizing c with
  | zero => exact List.forall_mem_nil _
  | succ depth ih =>
      intro x hx
      unfold executedByOne at hx
      obtain ⟨i, n, hfetched⟩ | ⟨kind, d, hfailed⟩ := fetched_or_unfetched c
      · have hfetched' := hfetched
        obtain ⟨d, hfetch, -, rfl⟩ := hfetched'
        rw [hfetch] at hx
        dsimp only at hx
        split at hx
        · split at hx
          · cases hx
          · next p _ =>
              unfold executedInSlot at hx
              obtain hx | hx := List.mem_append.1 hx
              · exact ih _ x hx
              · split at hx
                · split at hx
                  · exact ih _ x hx
                  · cases hx
                · cases hx
        · split at hx
          · next d' _ =>
              obtain rfl := List.mem_singleton.1 hx
              exact hfetched.wasFetched d'
          · cases hx
      · rw [hfailed] at hx
        cases hx

theorem executedByStep_wasFetched (c : Cpu β) : ∀ x ∈ executedByStep c, x.WasFetched := by
  intro x hx
  unfold executedByStep at hx
  split at hx
  · cases hx
  · unfold executedByPair at hx
    obtain hx | hx := List.mem_append.1 hx
    · exact executedByOne_wasFetched _ _ x hx
    · split at hx
      · split at hx
        · exact executedByOne_wasFetched _ _ x hx
        · cases hx
      · cases hx

theorem TrapFree.wasFetched {start : Cpu β} {log : List (Executed β)}
    (h : TrapFree start log c) : ∀ x ∈ log, x.WasFetched := by
  induction h with
  | begin => exact List.forall_mem_nil _
  | step _ _ ih =>
      intro x hx
      obtain hx | hx := List.mem_append.1 hx
      · exact ih x hx
      · exact executedByStep_wasFetched _ x hx
  | host _ _ ih => exact ih

/-! ## The law -/

/-- The address of a fault. A step whose run ends with a trap goes to the
trap handler with the trap on record. There is a place where it fails, and
wherever that is, the fault instruction register has the address of the
instruction that fails there, or that behind the outermost branch if it is in
a slot. From then on until there is another trap or interrupt, through any
number of steps and whatever the host does between them, the first instruction
that reads the register gets that address, and all others that do get the
address they were fetched from. -/
theorem fault_address {b f : Cpu β} {t : Trap}
    (hfault : executePair maxNesting b.beginStep = .error (.trap t) f) :
    b.step.pc = trapVector ∧ b.step.control.psr.onRecord t.kind = true ∧
    (∃ branches m d, FaultPlace b branches m t.kind d) ∧
    (∀ branches m kind d, FaultPlace b branches m kind d →
      t = trapThrough branches kind ∧ b.step.control.fir = reportedAddr branches m) ∧
    ∀ log c, TrapFree b.step log c →
      (∀ x rest, faultReads (log ++ executedByStep c) = x :: rest →
        x.Delivers b.step.control.fir ∧ ∀ y ∈ rest, y.Delivers y.address) ∧
      ∀ x ∈ log ++ executedByStep c, x.WasFetched := by
  have hstep : b.step = (f.enterTrap t).countStep := by
    unfold Cpu.step
    rw [hfault]
  have hheld : b.step.faultAddrHeld = true := by
    rw [hstep]
    rfl
  obtain ⟨branches, m, d, hplace⟩ := FaultPlace.exists_of_fault hfault
  refine ⟨by rw [hstep]; rfl, hplace.onRecord, ⟨branches, m, d, hplace⟩, ?_, ?_⟩
  · intro branches' m' kind d' hplace'
    have hsame := hplace'.executePair_eq
    rw [hfault] at hsame
    cases hsame
    exact ⟨rfl, hplace'.fir_eq⟩
  · intro log c hrun
    obtain ⟨e, hlast⟩ := step_reads c
    have hlaw := hrun.latch.trans hlast
    refine ⟨fun x rest hreads => ?_, fun x hx => ?_⟩
    · rw [faultReads_append] at hreads
      have hfirst := hlaw.first x rest hreads
      rw [if_pos hheld] at hfirst
      exact ⟨hfirst, hlaw.later x rest hreads⟩
    · obtain hx | hx := List.mem_append.1 hx
      · exact hrun.wasFetched x hx
      · exact executedByStep_wasFetched c x hx

/-- A call with a branch in its slot, and `trap` in the slot of that. The
handler reads the address of the fault, and once more in the slot of a
branch. -/
def trapInNestedSlot : Cpu OpenMemory :=
  .before 0x1000#32
    [(0x1000#32, [0x6c000000#32, 0x68000010#32, 0x44000000#32]),
      (0xffffff00#32, [0x30040000#32, 0xa0000000#32, 0x68000000#32, 0x30050000#32])]

theorem fault_address_of_nested :
    trapOf (executePair maxNesting trapInNestedSlot.beginStep) =
        some ⟨.instruction, true, false⟩ ∧
      trapInNestedSlot.step.control.fir = 0x1004#32 ∧
      ∃ x y,
        faultReads (executedByStep trapInNestedSlot.step ++
          executedByStep trapInNestedSlot.step.step) = [x, y] ∧
        x.Delivers 0x1004#32 ∧ y.address = 0xffffff0c#32 ∧ y.Delivers 0xffffff0c#32 := by
  have htrap : trapOf (executePair maxNesting trapInNestedSlot.beginStep) =
      some ⟨.instruction, true, false⟩ := by
    decide +kernel
  have hfir : trapInNestedSlot.step.control.fir = 0x1004#32 := by decide +kernel
  have hreads : (faultReads (executedByStep trapInNestedSlot.step ++
      executedByStep trapInNestedSlot.step.step)).map Executed.address =
      [0xffffff00#32, 0xffffff0c#32] := by
    decide +kernel
  have hrun : TrapFree trapInNestedSlot.step ([] ++ executedByStep trapInNestedSlot.step)
      trapInNestedSlot.step.step :=
    .step .begin (by decide +kernel)
  rw [List.nil_append] at hrun
  obtain ⟨-, -, -, -, hlatch⟩ := fault_address (eq_error_of_trapOf htrap)
  obtain ⟨x, rest, hlog, -, hrest⟩ := List.map_eq_cons_iff.1 hreads
  obtain ⟨y, rfl, hy⟩ := List.map_eq_singleton_iff.1 hrest
  obtain ⟨hfirst, hlater⟩ := (hlatch _ _ hrun).1 x [y] hlog
  have hsecond := hlater y (List.mem_singleton.2 rfl)
  rw [hfir] at hfirst
  rw [hy] at hsecond
  exact ⟨htrap, hfir, x, y, hlog, hfirst, hy, hsecond⟩

end Run

end I860
