import I860.Proofs.Bypass

/-!
# Dual operations and the instructions they stand for

A dual operation issues to the multiplier and to the adder at once. What it
puts there a separate instruction could have put there, as long as the route
takes its operands from the two sources: the pipe, with the precision on record
for it, is then left as `fmul`, `fadd` or `fsub` in their pipelined forms leave
it (`dual_operation_agrees`).

The routine gathers operands, loads T and K, writes the destination and moves
two pipes, and every one of these could see what one before it has done. The
destination may be the first source. A row that loads K multiplies with it
(`Route.multiplies_with_loaded`), and of the rows that load T some add it. So
`DualIssue` says for each of these things what it is in terms of the state
before the instruction, and of that state only. The second source is not the
destination here; what happens if it is belongs to the bypass.
-/

namespace I860

/-! ## Routes -/

/-- The K register that a row loads is an operand of its product. -/
theorem Route.multiplies_with_loaded (n : Fin 16) (hloads : (Route.table[n]).loadsK = true) :
    (Route.table[n]).multiply1 = if (Route.table[n]).usesKi then .ki else .kr := by
  revert n
  decide

namespace Instruction

variable (i : Instruction)

/-- What an operand of a dual operation is before the instruction. -/
def operand {β : Type} (c : Cpu β) : RouteSource → Double
  | .src1 => Execute.readOperand c.regs.floats i.src1 i.doubleSource
  | .src2 => Execute.readOperand c.regs.floats i.src2 i.doubleSource
  | .kr => c.regs.kr
  | .ki => c.regs.ki
  | .t => c.regs.t
  | .adderLast => (c.adder.last .three).toDouble
  | .multiplierLast => (c.multiplier.last (multiplierDepth i.doubleSource false)).toDouble

/-- The add form or the subtract form. -/
def sumOp : FloatOp := if i.raw.getLsbD 4 then .sub else .add

/-- A pipelined instruction with the sources and the precisions of `i`, which
does not retire into its second source. -/
structure SharesSources (j : Instruction) : Prop where
  pipelined : j.pipelined = true
  src1 : j.src1 = i.src1
  src2 : j.src2 = i.src2
  doubleSource : j.doubleSource = i.doubleSource
  doubleResult : j.doubleResult = i.doubleResult
  dest : j.dest ≠ j.src2

/-- What `i` issues if it computes with its own two sources. -/
def ownResult {β : Type} (c : Cpu β) (op : FloatOp) : PipeSlot :=
  c.fpu.compute op (i.operand c .src1) (i.operand c .src2) i.doubleSource i.doubleResult

end Instruction

/-- What the dual operation `i` makes of `c`. -/
structure DualIssue {β : Type} (i : Instruction) (c d : Cpu β) : Prop where
  adder : PipeName.adder.state d = (PipeName.adder.state c).issue .three
    (c.fpu.compute i.sumOp (i.operand c i.route.add1) (i.operand c i.route.add2)
      i.doubleSource i.doubleResult)
  multiplier : PipeName.multiplier.state d =
    (PipeName.multiplier.state c).issue (multiplierDepth i.doubleSource false)
      (c.fpu.compute .mul (i.operand c i.route.multiply1) (i.operand c i.route.multiply2)
        i.doubleSource i.doubleResult)
  others : ∀ p : PipeName, p ≠ .adder → p ≠ .multiplier → p.state d = p.state c
  transfer : d.regs.t = if i.route.loadsT then i.operand c .multiplierLast else c.regs.t
  kr : d.regs.kr =
    if i.route.loadsK ∧ i.route.multiply1 = .kr then i.operand c .src1 else c.regs.kr
  ki : d.regs.ki =
    if i.route.loadsK ∧ i.route.multiply1 = .ki then i.operand c .src1 else c.regs.ki
  floats : d.regs.floats = (c.writeSlot i.dest (if i.pipelined then c.adder.last .three
    else c.multiplier.last (multiplierDepth i.doubleSource false))).regs.floats

namespace Execute

variable {β : Type} {i j : Instruction} (c : Cpu β)

/-! ## Operands -/

theorem routed_operand (hdest : i.dest ≠ i.src2) (source : RouteSource) :
    routed c i source = i.operand c source := by
  cases source with
  | src2 => exact if_neg hdest
  | _ => rfl

/-- The constant that is loaded is named by the first operand of the product. -/
theorem loadRouted_constants :
    (loadRouted c i).kr =
        (if i.route.loadsK ∧ i.route.multiply1 = .kr then i.operand c .src1 else c.regs.kr) ∧
      (loadRouted c i).ki =
        (if i.route.loadsK ∧ i.route.multiply1 = .ki then i.operand c .src1
          else c.regs.ki) := by
  have hrow : i.route.loadsK = true →
      i.route.multiply1 = if i.route.usesKi then .ki else .kr :=
    Route.multiplies_with_loaded i.routeField
  unfold loadRouted
  dsimp only
  cases hloads : i.route.loadsK with
  | false => simp
  | true =>
      have hmultiply := hrow hloads
      cases huses : i.route.usesKi <;> rw [huses] at hmultiply <;>
        simp [hmultiply, Instruction.operand]

theorem guarded_eq {refused : Bool} (compute : Cpu β → Cpu β) (h : refused = false) :
    guarded refused compute c = .ok () (compute c) := by
  unfold guarded
  rw [h, if_neg Bool.false_ne_true]
  rfl

/-! ## The separate instructions -/

theorem state_binary (hshares : i.SharesSources j) (op : FloatOp) (pipe : FloatPipe) :
    pipe.name.state (binary op pipe true j c) =
      (pipe.name.state c).issue pipe.depth (i.ownResult c op) := by
  have hsecond : secondOperand c j pipe true = i.operand c .src2 := by
    have hdiffer : (j.dest == j.src2) = false := beq_eq_false_iff_ne.2 hshares.dest
    unfold secondOperand
    rw [hdiffer, Bool.and_false, if_neg Bool.false_ne_true, hshares.src2, hshares.doubleSource]
    rfl
  unfold binary
  rw [state_issue, if_pos rfl, hsecond, hshares.src1, hshares.doubleSource,
    hshares.doubleResult]
  rfl

theorem isDoubleToSingle_shared (hshares : i.SharesSources j) :
    isDoubleToSingle j = isDoubleToSingle i := by
  unfold isDoubleToSingle
  rw [hshares.doubleSource, hshares.doubleResult]

variable [Bus β] (slot : Exec β Unit)

theorem execute_product (hop : j.op = .fmul) (hform : isDoubleToSingle i = false)
    (hshares : i.SharesSources j) :
    ∃ m, execute slot j c = .ok () m ∧
      PipeName.multiplier.state m =
        (PipeName.multiplier.state c).issue (multiplierDepth i.doubleSource false)
          (i.ownResult c .mul) := by
  have hlegal := (isDoubleToSingle_shared hshares).trans hform
  unfold execute
  rw [hop]
  refine ⟨_, guarded_eq c _ hlegal, ?_⟩
  rw [hshares.pipelined, ← hshares.doubleSource]
  exact state_binary c hshares .mul (.multiplier (multiplierDepth j.doubleSource false))

theorem execute_sum (hop : j.op = if i.raw.getLsbD 4 then .fsub else .fadd)
    (hform : isDoubleToSingle i = false) (hshares : i.SharesSources j) :
    ∃ m, execute slot j c = .ok () m ∧
      PipeName.adder.state m = (PipeName.adder.state c).issue .three (i.ownResult c i.sumOp) := by
  have hlegal := (isDoubleToSingle_shared hshares).trans hform
  unfold execute Instruction.sumOp
  cases hsubtract : i.raw.getLsbD 4 <;> rw [hsubtract] at hop <;> rw [hop]
  · refine ⟨_, guarded_eq c _ hlegal, ?_⟩
    rw [hshares.pipelined]
    exact state_binary c hshares .add .adder
  · refine ⟨_, guarded_eq c _ hlegal, ?_⟩
    rw [hshares.pipelined]
    exact state_binary c hshares .sub .adder

/-! ## The dual operation -/

theorem execute_dualIssue (hop : i.op = .dualOp) (hform : isDoubleToSingle i = false)
    (hdest : i.dest ≠ i.src2) :
    ∃ d, execute slot i c = .ok () d ∧ DualIssue i c d := by
  obtain ⟨hkr, hki⟩ := loadRouted_constants (i := i) c
  unfold execute
  rw [hop]
  refine ⟨_, guarded_eq c _ hform, ?_, ?_, fun p hadder hmultiplier => ?_, rfl, hkr, hki, ?_⟩
  · rw [← routed_operand c hdest, ← routed_operand c hdest]
    rfl
  · rw [← routed_operand c hdest, ← routed_operand c hdest]
    rfl
  · cases p with
    | adder => exact absurd rfl hadder
    | multiplier => exact absurd rfl hmultiplier
    | _ => rfl
  · show (c.writeSlot i.dest (dualRetired c i)).regs.floats = _
    unfold dualRetired
    cases i.pipelined <;> rfl

end Execute

open Execute

/-- A dual operation does to each pipe what a separate instruction does with
the same operands. Its form is not double to single, which is refused, and its
destination is not its second source. It completes. All operands, and all that
is loaded and retired, are as in the state before it; each of the two pipes has
moved on by one slot and no other pipe has. If the route sends the two sources
to the multiplier, then a pipelined multiplication of these sources completes
too and leaves the multiplier as the dual operation does, and the precision on
record for it. The same holds for the adder, with a pipelined sum or difference
according to the form of the dual operation. -/
theorem dual_operation_agrees {β : Type} [Bus β] (slot : Exec β Unit) (c : Cpu β)
    {i : Instruction} (hop : i.op = .dualOp) (hform : isDoubleToSingle i = false)
    (hdest : i.dest ≠ i.src2) :
    ∃ d, execute slot i c = .ok () d ∧ DualIssue i c d ∧
      (i.route.multiply1 = .src1 → i.route.multiply2 = .src2 →
        ∀ (j : Instruction) (slot' : Exec β Unit), j.op = .fmul → i.SharesSources j →
          ∃ m, execute slot' j c = .ok () m ∧
            PipeName.multiplier.state d = PipeName.multiplier.state m) ∧
      (i.route.add1 = .src1 → i.route.add2 = .src2 →
        ∀ (j : Instruction) (slot' : Exec β Unit),
          j.op = (if i.raw.getLsbD 4 then .fsub else .fadd) → i.SharesSources j →
          ∃ m, execute slot' j c = .ok () m ∧
            PipeName.adder.state d = PipeName.adder.state m) := by
  obtain ⟨d, ran, hissue⟩ := execute_dualIssue c slot hop hform hdest
  refine ⟨d, ran, hissue, ?_, ?_⟩
  · intro hfirst hsecond j slot' hproduct hshares
    obtain ⟨m, hran, hstate⟩ := execute_product c slot' hproduct hform hshares
    refine ⟨m, hran, ?_⟩
    rw [hstate, hissue.multiplier, hfirst, hsecond]
    rfl
  · intro hfirst hsecond j slot' hsum hshares
    obtain ⟨m, hran, hstate⟩ := execute_sum c slot' hsum hform hshares
    refine ⟨m, hran, ?_⟩
    rw [hstate, hissue.adder, hfirst, hsecond]
    rfl

/-- One in `f4` and three in `f6`, two about to leave the adder and nine about
to leave the multiplier. -/
def fullPipes : Cpu OpenMemory :=
  .steps 5 (.before 0x1000#32
    [(0x1000#32,
      [0xec043f80#32, 0x08042000#32, 0xec054040#32, 0x08062800#32, 0x48802430#32, 0x48000430#32,
        0x48000430#32, 0x48c03420#32, 0x48000420#32, 0x48000420#32])])

/-- `m12ttpa.ss f4,f6,f4` adds the T that it loads and multiplies the `f4` that
it writes, as `pfmul.ss f4,f6,f4` does. In its subtract form `rat1p2.ss f4,f6,f4`
leaves the adder as `pfsub.ss f4,f6,f4` does. -/
theorem dual_operation_agrees_of_full_pipes :
    (∃ d m, execute (pure ()) ⟨0x48c4240b#32⟩ fullPipes = .ok () d ∧
        execute (pure ()) ⟨0x48c42420#32⟩ fullPipes = .ok () m ∧
        PipeName.multiplier.state d = PipeName.multiplier.state m ∧
        m.multiplier.first = .ofSingle 0x40400000#32 ∧
        d.adder.first = .ofSingle 0x40000000#32 ∧ d.regs.t = widen 0x41100000#32) ∧
      ∃ d m, execute (pure ()) ⟨0x48c42418#32⟩ fullPipes = .ok () d ∧
        execute (pure ()) ⟨0x48c42431#32⟩ fullPipes = .ok () m ∧
        PipeName.adder.state d = PipeName.adder.state m ∧
        m.adder.first = .ofSingle 0xc0000000#32 := by
  constructor
  · let i : Instruction := ⟨0x48c4240b#32⟩
    let j : Instruction := ⟨0x48c42420#32⟩
    have hop : i.op = .dualOp := by decide +kernel
    have hform : isDoubleToSingle i = false := by decide +kernel
    have hdest : i.dest ≠ i.src2 := by decide +kernel
    have hshares : i.SharesSources j := by constructor <;> decide +kernel
    obtain ⟨d, ran, hissue, hmultiplies, -⟩ :=
      dual_operation_agrees (pure ()) fullPipes hop hform hdest
    obtain ⟨m, hran, hstate⟩ :=
      hmultiplies (by decide +kernel) (by decide +kernel) j (pure ()) (by decide +kernel) hshares
    have hproduct : (finalState (execute (pure ()) j fullPipes)).multiplier.first =
        .ofSingle 0x40400000#32 := by
      decide +kernel
    have hsum : i.sumOp = .add ∧ fullPipes.fpu.compute .add (i.operand fullPipes i.route.add1)
        (i.operand fullPipes i.route.add2) i.doubleSource i.doubleResult =
          .ofSingle 0x40000000#32 := by
      decide +kernel
    have hloaded : (if i.route.loadsT then i.operand fullPipes .multiplierLast
        else fullPipes.regs.t) = widen 0x41100000#32 := by
      decide +kernel
    refine ⟨d, m, ran, hran, hstate, ?_, ?_, ?_⟩
    · rw [hran] at hproduct
      exact hproduct
    · have hfirst := congrArg (fun s => s.stages.first) hissue.adder
      rw [hsum.1, hsum.2] at hfirst
      exact hfirst
    · rw [hissue.transfer, hloaded]
  · let i : Instruction := ⟨0x48c42418#32⟩
    let j : Instruction := ⟨0x48c42431#32⟩
    have hop : i.op = .dualOp := by decide +kernel
    have hform : isDoubleToSingle i = false := by decide +kernel
    have hdest : i.dest ≠ i.src2 := by decide +kernel
    have hshares : i.SharesSources j := by constructor <;> decide +kernel
    obtain ⟨d, ran, -, -, hsubtracts⟩ := dual_operation_agrees (pure ()) fullPipes hop hform hdest
    obtain ⟨m, hran, hstate⟩ :=
      hsubtracts (by decide +kernel) (by decide +kernel) j (pure ()) (by decide +kernel) hshares
    have hdifference : (finalState (execute (pure ()) j fullPipes)).adder.first =
        .ofSingle 0xc0000000#32 := by
      decide +kernel
    refine ⟨d, m, ran, hran, hstate, ?_⟩
    rw [hran] at hdifference
    exact hdifference

end I860
