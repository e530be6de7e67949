import I860.Proofs.PipeIssue

/-!
# The bypass of the second source

A pipelined instruction retires a result into its destination and computes a
new one from its sources. If its second source is that destination, it takes
the source from the pipe and not from the register, which is not written yet.
Three routines do this, each for itself. The point of it is that nobody can
tell: it should be as if the register had been written first.

`Instruction.resultWith` is what an instruction issues if its second source is
a given number, so that the question becomes one about that number alone
(`execute_issuesWith`). For a register that keeps what is written the answer is
yes, if the result that is retired has the precision the sources are read with:
what was just written is what is read (`secondIn_written`). The registers `f0`
and `f1` keep nothing and read as zero, but the bypass knows nothing of this.
An instruction that names one of them as destination and second source
computes with the result that it throws away (`bypass_is_in_order`).
-/

namespace I860

/-! ## Registers just written -/

theorem Double.append_words (v : Double) :
    ((v >>> 32).setWidth 32 : Word) ++ (v.setWidth 32 : Word) = v := by
  apply BitVec.eq_of_getLsbD_eq
  intro k hk
  rw [BitVec.getLsbD_append]
  split
  · next hlow => simp [hlow]
  · next hhigh =>
      have hfits : k - 32 < 32 := by omega
      have hback : 32 + (k - 32) = k := by omega
      simp [hfits, hback]

/-- A single result is its low word. -/
theorem PipeSlot.ofBits_single {v w : Double} (h : (v.setWidth 32 : Word) = w.setWidth 32) :
    ofBits v false = ofBits w false := by
  have hmask : ∀ v : Double, v &&& 0xffffffff#64 = (v.setWidth 32 : Word).setWidth 64 := by
    intro v
    apply BitVec.eq_of_toNat_eq
    have hones : (0xffffffff#64).toNat = 2 ^ 32 - 1 := by decide
    rw [BitVec.toNat_and, hones, Nat.and_two_pow_sub_one_eq_mod, BitVec.toNat_setWidth,
      BitVec.toNat_setWidth]
    omega
  unfold ofBits
  rw [if_neg Bool.false_ne_true, if_neg Bool.false_ne_true, hmask, hmask, h]

namespace FloatRegs

variable (r : FloatRegs) {i : RegNum}

theorem readLane_writeLane (h : 2 ≤ i.val) (v : Word) : (r.writeLane i v).readLane i = v := by
  unfold writeLane readLane
  rw [if_neg (by omega), if_neg (by omega)]
  simp

theorem readPair_writePair (h : 2 ≤ i.val) (v : Double) : (r.writePair i v).readPair i = v := by
  have hlanes : (oddLane i).val ≠ (evenLane i).val := by
    simp only [oddLane, evenLane]
    omega
  unfold writePair readPair
  rw [if_neg (by omega), if_neg (by omega)]
  simp only [Fin.getElem_fin, Vector.getElem_set_self, Vector.getElem_set_ne _ _ hlanes]
  exact v.append_words

theorem readLane_zero (h : i.val < 2) : r.readLane i = 0#32 := if_pos h

theorem readPair_zero (h : i.val < 2) : r.readPair i = 0#64 := if_pos h

end FloatRegs

/-! ## The second source -/

open Execute

namespace Instruction

variable (i : Instruction)

/-- The instruction computes with its second source and issues the result to a
pipe. -/
def issuesSecond : Bool :=
  match i.op with
  | .fadd | .fsub | .fmul | .pfgt | .pfeq => i.pipelined
  | .fiadd | .fisub | .faddp | .faddz | .fzchkl | .fzchks => i.pipelined
  | .pfmul3 | .dualOp => true
  | _ => false

/-- The instruction takes its sources for plain bits. -/
def onBits : Bool :=
  match i.op with
  | .fiadd | .fisub | .faddp | .faddz | .fzchkl | .fzchks => true
  | _ => false

def readsDouble : Bool :=
  match i.op with
  | .faddp | .faddz | .fzchkl | .fzchks => true
  | _ => i.doubleSource

def secondIn (r : FloatRegs) : Double :=
  if i.onBits then readBits r i.src2 i.readsDouble else readOperand r i.src2 i.readsDouble

def secondOf (slot : PipeSlot) : Double := if i.onBits then slot.bits else slot.toDouble

/-- The pipe that the instruction retires to its destination from. -/
def retiringPipe : FloatPipe :=
  match i.op with
  | .dualOp => if i.pipelined then .adder else dualMultiplier i
  | .fmul => .multiplier (multiplierDepth i.doubleSource false)
  | .pfmul3 => .multiplier (multiplierDepth true true)
  | .fiadd | .fisub | .faddp | .faddz | .fzchkl | .fzchks => .graphics
  | _ => .adder

variable {β : Type} (c : Cpu β)

def retired : PipeSlot := lastStage c i.retiringPipe

/-- An operand of a dual operation whose second source is `y`. -/
def routedWith (y : Double) : RouteSource → Double
  | .src2 => y
  | source => routed c i source

/-- What the instruction puts into a pipe if its second source is `y`. -/
def resultWith (y : Double) : PipeName → PipeSlot
  | .adder =>
      let x := readOperand c.regs.floats i.src1 i.doubleSource
      match i.op with
      | .fadd => c.fpu.compute .add x y i.doubleSource i.doubleResult
      | .fsub => c.fpu.compute .sub x y i.doubleSource i.doubleResult
      | .dualOp =>
          c.fpu.compute (if i.raw.getLsbD 4 then .sub else .add)
            (i.routedWith c y i.route.add1) (i.routedWith c y i.route.add2)
            i.doubleSource i.doubleResult
      | _ => .ofBits 0#64 i.doubleSource
  | .multiplier =>
      match i.op with
      | .dualOp =>
          c.fpu.compute .mul (i.routedWith c y i.route.multiply1)
            (i.routedWith c y i.route.multiply2) i.doubleSource i.doubleResult
      | _ =>
          c.fpu.compute .mul (readOperand c.regs.floats i.src1 i.doubleSource) y
            i.doubleSource i.doubleResult
  | .graphics =>
      let x := readBits c.regs.floats i.src1 i.readsDouble
      let pm := c.control.psr.pm
      match i.op with
      | .fisub => .ofBits (x - y) i.readsDouble
      | .fzchkl => .ofBits (Graphics.depthCheck32 x y pm).1 i.readsDouble
      | .fzchks => .ofBits (Graphics.depthCheck16 x y pm).1 i.readsDouble
      | _ => .ofBits (x + y) i.readsDouble
  | .loads => .empty

/-- What a compare compares if its second source is `y`. -/
def comparedWith (y : Double) : Double × Double :=
  let x := readOperand c.regs.floats i.src1 i.doubleSource
  if i.doubleSource then (x, y) else (widen (narrowNearest x), widen (narrowNearest y))

def foundWith (y : Double) : Bool :=
  let (x, y) := i.comparedWith c y
  match i.op with
  | .pfgt => if i.doubleResult then !binary64.le x y else binary64.lt y x
  | _ => binary64.eq x y

theorem secondIn_written {s : PipeSlot} (hsame : i.dest = i.src2) (hkeeps : 2 ≤ i.dest.val)
    (hprecision : s.double = i.readsDouble) :
    i.secondIn (c.writeSlot i.dest s).regs.floats =
      if i.onBits && !i.readsDouble then (s.bits.setWidth 32 : Word).setWidth 64
      else i.secondOf s := by
  rw [hsame] at hkeeps
  unfold secondIn secondOf Cpu.writeSlot readBits readOperand PipeSlot.toDouble
  rw [hprecision, hsame]
  cases i.readsDouble with
  | true =>
      have hread := c.regs.floats.readPair_writePair hkeeps s.bits
      cases i.onBits <;> exact hread
  | false =>
      have hread := c.regs.floats.readLane_writeLane hkeeps (s.bits.setWidth 32)
      cases i.onBits
      · exact congrArg widen hread
      · exact congrArg (BitVec.setWidth 64) hread

theorem secondIn_zero (hsame : i.dest = i.src2) (hzero : i.dest.val < 2) (r : FloatRegs) :
    i.secondIn r = 0#64 := by
  have hwiden : widen 0#32 = 0#64 := by decide +kernel
  rw [hsame] at hzero
  unfold secondIn readBits readOperand
  rw [r.readLane_zero hzero, r.readPair_zero hzero, hwiden]
  cases i.onBits <;> cases i.readsDouble <;> rfl

/-- The second source that the instruction computes with. -/
def second : Double :=
  if i.dest = i.src2 then i.secondOf (i.retired c) else i.secondIn c.regs.floats

end Instruction

/-- The instruction `i`, executed from `c` to `d`, has issued what it does with
`y` for its second source. -/
structure IssuesWith {β : Type} (i : Instruction) (c d : Cpu β) (y : Double) : Prop where
  inserted : ∀ p depth, i.issueDepth p = some depth →
    (p.state d).stages.first = i.resultWith c y p
  found : i.op = .pfgt ∨ i.op = .pfeq → d.control.psr.cc = i.foundWith c y

section Execution

variable {β : Type} {c d : Cpu β} {i : Instruction}

theorem issueDepth_retiringPipe (hissues : i.issuesSecond = true) :
    i.issueDepth i.retiringPipe.name = some i.retiringPipe.depth ∧
      i.delivers i.retiringPipe.name = true := by
  unfold Instruction.retiringPipe
  cases hop : i.op <;> simp only [Instruction.issuesSecond, hop, Bool.false_eq_true] at hissues
  case dualOp =>
    cases hpipelined : i.pipelined <;>
      simp [Instruction.issueDepth, Instruction.delivers, hop, hpipelined, dualMultiplier,
        FloatPipe.name, FloatPipe.depth]
  all_goals
    simp [Instruction.issueDepth, Instruction.delivers, hop, hissues, FloatPipe.name,
      FloatPipe.depth, multiplierDepth]

/-- Only a dual operation issues to a pipe that it does not retire from. -/
theorem eq_retiringPipe_of_issueDepth (hissues : i.issuesSecond = true) (hone : i.op ≠ .dualOp)
    {p : PipeName} {depth : PipeDepth} (hdepth : i.issueDepth p = some depth) :
    p = i.retiringPipe.name := by
  unfold Instruction.retiringPipe
  cases hop : i.op <;> simp only [Instruction.issuesSecond, hop, Bool.false_eq_true] at hissues
  case dualOp => exact absurd hop hone
  all_goals
    cases p <;> simp [Instruction.issueDepth, hop] at hdepth
    rfl

theorem execute_delivers [Bus β] {slot : Exec β Unit} (hissues : i.issuesSecond = true)
    (ran : execute slot i c = .ok () d) :
    d.regs.floats = (c.writeSlot i.dest (i.retired c)).regs.floats := by
  have hstraight : i.op.isDelayedBranch = false := by
    cases hop : i.op <;> simp [Instruction.issuesSecond, hop] at hissues <;> rfl
  have hretired : i.retired c =
      (i.retiringPipe.name.state c).stages.last i.retiringPipe.depth := by
    unfold Instruction.retired
    cases i.retiringPipe <;> rfl
  have hlaw := (execute_pipes i slot hstraight c i.retiringPipe.name).completed ran
  unfold PipeLaw at hlaw
  rw [(issueDepth_retiringPipe hissues).1] at hlaw
  rw [hretired]
  exact hlaw.2 (issueDepth_retiringPipe hissues).2

/-! ## What is issued -/

theorem secondOperand_eq {pipe : FloatPipe} (hnumber : i.onBits = false)
    (hread : i.readsDouble = i.doubleSource) (hpipe : i.retiringPipe = pipe) :
    secondOperand c i pipe true = i.second c := by
  unfold secondOperand Instruction.second Instruction.secondOf Instruction.secondIn
    Instruction.retired
  rw [hnumber, hread, hpipe]
  simp only [Bool.true_and, beq_iff_eq, Bool.false_eq_true, if_false]

theorem compareOperands_eq (hcompare : i.op = .pfgt ∨ i.op = .pfeq)
    (hpipelined : i.pipelined = true) :
    compareOperands c i = i.comparedWith c (i.second c) := by
  have hsecond : secondOperand c i .adder true = i.second c := by
    apply secondOperand_eq <;> obtain hop | hop := hcompare <;>
      simp [Instruction.onBits, Instruction.readsDouble, Instruction.retiringPipe, hop]
  unfold compareOperands Instruction.comparedWith
  rw [hpipelined, hsecond]

theorem secondBits_eq (hbits : i.onBits = true) (hpipelined : i.pipelined = true) :
    secondBits c i i.readsDouble = i.second c := by
  have hpipe : i.retiringPipe = .graphics := by
    cases hop : i.op <;> simp [Instruction.onBits, hop] at hbits <;>
      simp [Instruction.retiringPipe, hop]
  unfold secondBits Instruction.second Instruction.secondOf Instruction.secondIn
    Instruction.retired
  rw [hbits, hpipelined, hpipe]
  simp only [Bool.true_and, beq_iff_eq, if_true]

theorem routed_eq (hop : i.op = .dualOp) (source : RouteSource) :
    routed c i source = i.routedWith c (i.second c) source := by
  cases source with
  | src2 =>
      have hread : i.readsDouble = i.doubleSource := by simp [Instruction.readsDouble, hop]
      have hnumber : i.onBits = false := by simp [Instruction.onBits, hop]
      have hretired : i.retired c = dualRetired c i := by
        simp [Instruction.retired, Instruction.retiringPipe, dualRetired, hop]
      dsimp only [routed, Instruction.routedWith]
      unfold Instruction.second Instruction.secondOf Instruction.secondIn
      rw [hnumber, hread, hretired]
      rfl
  | _ => rfl

theorem first_issue (m : Cpu β) (i : Instruction) (pipe : FloatPipe) (result : PipeSlot) :
    (pipe.name.state (issue m i pipe true result)).stages.first = result := by
  rw [state_issue, if_pos rfl]
  cases pipe.depth <;> rfl

theorem IssuesWith.of_issue {m : Cpu β} {pipe : FloatPipe} {result : PipeSlot} {y : Double}
    (hissues : i.issuesSecond = true) (hone : i.op ≠ .dualOp)
    (hcompare : ¬(i.op = .pfgt ∨ i.op = .pfeq)) (hpipe : i.retiringPipe = pipe)
    (hresult : result = i.resultWith c y pipe.name) :
    IssuesWith i c (issue m i pipe true result) y := by
  refine ⟨fun p depth hdepth => ?_, fun h => absurd h hcompare⟩
  rw [eq_retiringPipe_of_issueDepth hissues hone hdepth, hpipe, first_issue, hresult]

theorem IssuesWith.of_setCompare {y : Double} (hcompare : i.op = .pfgt ∨ i.op = .pfeq)
    (hpipelined : i.pipelined = true) :
    IssuesWith i c (setCompare i (i.foundWith c y) c) y := by
  have honly : ∀ p depth, i.issueDepth p = some depth → p = .adder := by
    intro p depth hdepth
    obtain hop | hop := hcompare <;> cases p <;> simp_all [Instruction.issueDepth]
  have hslot : i.resultWith c y .adder = .ofBits 0#64 i.doubleSource := by
    obtain hop | hop := hcompare <;> simp [Instruction.resultWith, hop]
  have hnoted : ∀ noted : Cpu β, noted.control.psr.cc = i.foundWith c y →
      IssuesWith i c (issue noted i .adder true (.ofBits 0#64 i.doubleSource)) y := by
    intro noted hcode
    refine ⟨fun p depth hdepth => ?_, fun _ => hcode⟩
    rw [honly p depth hdepth, hslot]
    exact first_issue noted i .adder _
  unfold setCompare
  dsimp only
  rw [hpipelined, if_pos rfl]
  apply hnoted
  split <;> rfl

theorem IssuesWith.of_dualOp (hop : i.op = .dualOp)
    (hsum : d.adder.first = dualSum c i) (hproduct : d.multiplier.first = dualProduct c i) :
    IssuesWith i c d (i.second c) := by
  refine ⟨fun p depth hdepth => ?_, fun h => by simp [hop] at h⟩
  cases p with
  | adder =>
      refine hsum.trans ?_
      unfold dualSum
      rw [routed_eq hop, routed_eq hop]
      simp [Instruction.resultWith, hop]
  | multiplier =>
      refine hproduct.trans ?_
      unfold dualProduct
      rw [routed_eq hop, routed_eq hop]
      simp [Instruction.resultWith, hop]
  | _ => simp [Instruction.issueDepth, hop] at hdepth

theorem eq_of_guarded {refused : Bool} {compute : Cpu β → Cpu β}
    (h : guarded refused compute c = .ok () d) : d = compute c := by
  unfold guarded at h
  rw [Exec.ite_apply] at h
  split at h
  · cases h
  · cases h
    rfl

theorem execute_issuesWith [Bus β] {slot : Exec β Unit} (hissues : i.issuesSecond = true)
    (ran : execute slot i c = .ok () d) : IssuesWith i c d (i.second c) := by
  unfold execute at ran
  -- One case for each routine that reads a second source.
  cases hop : i.op <;> rw [hop] at ran <;> dsimp only at ran
  case fadd | fsub | fmul =>
    have hpipelined : i.pipelined = true := by simpa [Instruction.issuesSecond, hop] using hissues
    rw [eq_of_guarded ran]
    unfold binary
    rw [hpipelined, secondOperand_eq (by simp [Instruction.onBits, hop])
      (by simp [Instruction.readsDouble, hop]) (by simp [Instruction.retiringPipe, hop])]
    exact .of_issue hissues (by simp [hop]) (by simp [hop])
      (by simp [Instruction.retiringPipe, hop])
      (by simp [Instruction.resultWith, FloatPipe.name, hop])
  case pfmul3 =>
    rw [eq_of_guarded ran]
    unfold binary
    rw [secondOperand_eq (by simp [Instruction.onBits, hop])
      (by simp [Instruction.readsDouble, hop]) (by simp [Instruction.retiringPipe, hop])]
    exact .of_issue hissues (by simp [hop]) (by simp [hop])
      (by simp [Instruction.retiringPipe, hop])
      (by simp [Instruction.resultWith, FloatPipe.name, hop])
  case dualOp =>
    rw [eq_of_guarded ran]
    refine .of_dualOp hop rfl ?_
    show (c.multiplier.advance (multiplierDepth i.doubleSource false) _).first = _
    cases multiplierDepth i.doubleSource false <;> rfl
  case pfgt =>
    have hpipelined : i.pipelined = true := by simpa [Instruction.issuesSecond, hop] using hissues
    have hfound : pfgt i c = setCompare i (i.foundWith c (i.second c)) c := by
      unfold pfgt Instruction.foundWith
      rw [compareOperands_eq (.inl hop) hpipelined, hop]
    obtain ⟨-, rfl⟩ := EStateM.Result.ok.inj ran
    rw [hfound]
    exact .of_setCompare (.inl hop) hpipelined
  case pfeq =>
    have hpipelined : i.pipelined = true := by simpa [Instruction.issuesSecond, hop] using hissues
    have hfound : pfeq i c = setCompare i (i.foundWith c (i.second c)) c := by
      unfold pfeq Instruction.foundWith
      rw [compareOperands_eq (.inr hop) hpipelined, hop]
    obtain ⟨-, rfl⟩ := EStateM.Result.ok.inj ran
    rw [hfound]
    exact .of_setCompare (.inr hop) hpipelined
  case fiadd | fisub | faddp | faddz | fzchkl | fzchks =>
    have hpipelined : i.pipelined = true := by simpa [Instruction.issuesSecond, hop] using hissues
    have hsecond : secondBits c i i.readsDouble = i.second c :=
      secondBits_eq (by simp [Instruction.onBits, hop]) hpipelined
    have hissued : ∀ {m : Cpu β} {result : PipeSlot},
        result = i.resultWith c (i.second c) .graphics →
        IssuesWith i c (issue m i .graphics i.pipelined result) (i.second c) := by
      intro m result hresult
      rw [hpipelined]
      exact .of_issue hissues (by simp [hop]) (by simp [hop])
        (by simp [Instruction.retiringPipe, hop]) hresult
    simp only [Instruction.readsDouble, hop] at hsecond
    obtain ⟨-, rfl⟩ := EStateM.Result.ok.inj ran
    apply hissued
    rw [hsecond]
    simp [Instruction.resultWith, Instruction.readsDouble, hop, Graphics.depthCheck32,
      Graphics.depthCheck16]
  all_goals simp [Instruction.issuesSecond, hop] at hissues

/-! ## In order -/

/-- Of the second source of a sum of single registers only the low word
counts. -/
theorem IssuesWith.lowWord {y : Double} (h : IssuesWith i c d y) (hbits : i.onBits = true)
    (hsingle : i.readsDouble = false) :
    IssuesWith i c d ((y.setWidth 32 : Word).setWidth 64) := by
  have hlow : ((y.setWidth 32 : Word).setWidth 64 : Double).setWidth 32 =
      (y.setWidth 32 : Word) := by
    simp
  have hop : i.op = .fiadd ∨ i.op = .fisub := by
    cases hop : i.op <;> simp_all [Instruction.onBits, Instruction.readsDouble]
  refine ⟨fun p depth hdepth => ?_, fun hcompare => ?_⟩
  · rw [h.inserted p depth hdepth]
    have hp : p = .graphics := by
      obtain hop | hop := hop <;> cases p <;> simp [Instruction.issueDepth, hop] at hdepth <;> rfl
    obtain hop | hop := hop
    · simp only [hp, Instruction.resultWith, hop, hsingle]
      apply PipeSlot.ofBits_single
      rw [BitVec.setWidth_add _ _ (by decide), BitVec.setWidth_add _ _ (by decide), hlow]
    · simp only [hp, Instruction.resultWith, hop, hsingle]
      apply PipeSlot.ofBits_single
      apply BitVec.eq_of_toNat_eq
      simp only [BitVec.toNat_setWidth, BitVec.toNat_sub]
      omega
  · obtain hop | hop := hop <;> simp [hop] at hcompare

/-- The bypass is in-order update, but for the registers that read as zero.
An instruction that issues what it computes from its second source has this
register for its destination as well, and retires a result with the precision
that it reads its sources with. The result goes to the destination. If that is
a register that keeps what is written to it, the instruction has issued, and
has found if it is a compare, what follows from reading its second source
behind the write. If it is `f0` or `f1`, reading it there would give zero, but
the instruction has computed with the result that it retires. -/
theorem bypass_is_in_order [Bus β] {slot : Exec β Unit} (hissues : i.issuesSecond = true)
    (hsame : i.dest = i.src2) (hprecision : (i.retired c).double = i.readsDouble)
    (ran : execute slot i c = .ok () d) :
    d.regs.floats = (c.writeSlot i.dest (i.retired c)).regs.floats ∧
      (2 ≤ i.dest.val →
        IssuesWith i c d (i.secondIn (c.writeSlot i.dest (i.retired c)).regs.floats)) ∧
      (i.dest.val < 2 →
        i.secondIn (c.writeSlot i.dest (i.retired c)).regs.floats = 0#64 ∧
          IssuesWith i c d (i.secondOf (i.retired c))) := by
  have hwith := execute_issuesWith hissues ran
  have hsecond : i.second c = i.secondOf (i.retired c) := if_pos hsame
  rw [hsecond] at hwith
  refine ⟨?_, fun hkeeps => ?_, fun hzero => ⟨?_, hwith⟩⟩
  · exact execute_delivers hissues ran
  · rw [i.secondIn_written c hsame hkeeps hprecision]
    split
    · next hlow =>
        simp only [Bool.and_eq_true, Bool.not_eq_true'] at hlow
        have hbits : i.secondOf (i.retired c) = (i.retired c).bits := if_pos hlow.1
        rw [hbits] at hwith
        exact hwith.lowWord hlow.1 hlow.2
    · exact hwith
  · exact i.secondIn_zero hsame hzero _

/-- One in `f4`, and two about to leave the adder. -/
def twoLeavesAdder : Cpu OpenMemory :=
  .steps 3 (.before 0x1000#32
    [(0x1000#32,
      [0xec043f80#32, 0x08042000#32, 0x48862430#32, 0x48080430#32, 0x48080430#32,
        0xa0000000#32])])

/-- `pfadd.ss f4,f6,f6` adds one to the two that it writes. -/
theorem bypass_is_in_order_of_sum :
    let i : Instruction := ⟨0x48c62430#32⟩
    let ran := execute (pure ()) i twoLeavesAdder
    i.dest = i.src2 ∧ i.retired twoLeavesAdder = .ofSingle 0x40000000#32 ∧
      ranThrough ran = true ∧ (finalState ran).adder.first = .ofSingle 0x40400000#32 := by
  intro i ran
  have hretired : i.retired twoLeavesAdder = .ofSingle 0x40000000#32 := by decide +kernel
  have hran : ranThrough ran = true := by decide +kernel
  have hissues : i.issuesSecond = true := by decide +kernel
  have hprecision : (i.retired twoLeavesAdder).double = i.readsDouble := by decide +kernel
  have hsame : i.dest = i.src2 := by decide +kernel
  have horder := bypass_is_in_order hissues hsame hprecision (eq_ok_of_ranThrough hran)
  have hinserted := (horder.2.1 (by decide)).inserted .adder .three (by decide +kernel)
  have hsum : i.resultWith twoLeavesAdder
      (i.secondIn (twoLeavesAdder.writeSlot i.dest (i.retired twoLeavesAdder)).regs.floats)
      .adder = .ofSingle 0x40400000#32 := by
    decide +kernel
  exact ⟨hsame, hretired, hran, hinserted.trans hsum⟩

/-- `pfadd.ss f4,f0,f0` does the same. The two that it retires is lost, and
`f0` reads as zero before and after, so in order the sum is one. -/
theorem zero_register_is_bypassed :
    let i : Instruction := ⟨0x48002430#32⟩
    let retired := i.retired twoLeavesAdder
    let inOrder := i.secondIn (twoLeavesAdder.writeSlot i.dest retired).regs.floats
    let ran := execute (pure ()) i twoLeavesAdder
    i.issuesSecond = true ∧ i.dest = i.src2 ∧ retired.double = i.readsDouble ∧
      ranThrough ran = true ∧ inOrder = 0#64 ∧
      i.resultWith twoLeavesAdder inOrder .adder = .ofSingle 0x3f800000#32 ∧
      (finalState ran).adder.first = .ofSingle 0x40400000#32 := by
  decide +kernel

end Execution

end I860
