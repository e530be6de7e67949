import I860.Proofs.ControlBits
import I860.Proofs.Course

/-!
# What an instruction does to the pipes

`Instruction.issueDepth` says to which pipes an instruction issues and how many
stages the issue passes through. That is all there is to know: an issue moves
the pipe on by one slot and records the precision of the slot that came out,
and a pipe that is not issued to stays as it is, with its precision bit
(`execute_pipes`). Three routines make issues, each in an order of its own, and
the state of a pipe (`PipeState`) is taken from before and after all of it.

The destination gets the slot that came out, with the precision of that slot. A
dual operation issues to two pipes and has one destination; which of the two it
takes is the business of flag P.
-/

namespace I860

/-- One of the four pipes. -/
inductive PipeName where
  | adder
  | multiplier
  | loads
  | graphics
  deriving DecidableEq, Repr

/-- The stages of a pipe, and the precision on record for it. -/
structure PipeState where
  stages : Pipe
  precision : Bool
  deriving DecidableEq, Repr

/-- A pipe with nothing in it, as after a reset. -/
def PipeState.initial : PipeState := ⟨.empty, false⟩

/-- A pipe after an issue. -/
def PipeState.issue (s : PipeState) (depth : PipeDepth) (slot : PipeSlot) : PipeState :=
  ⟨s.stages.advance depth slot, (s.stages.last depth).double⟩

/-- What a load through the pipe puts in, by its width and the datum. -/
def PipeSlot.ofLoaded (w : Width) (v : Quad) : PipeSlot := .ofBits (v.setWidth 64) (w = .double)

/-- To how many stages of a pipe an instruction issues, if it issues to it. -/
def Instruction.issueDepth (i : Instruction) : PipeName → Option PipeDepth
  | .adder =>
      match i.op with
      | .fadd | .fsub | .fix | .ftrunc | .famov | .pfgt | .pfeq =>
          if i.pipelined then some .three else none
      | .dualOp => some .three
      | _ => none
  | .multiplier =>
      match i.op with
      | .fmul => if i.pipelined then some (multiplierDepth i.doubleSource false) else none
      | .pfmul3 => some .three
      | .dualOp => some (multiplierDepth i.doubleSource false)
      | _ => none
  | .loads =>
      match i.op with
      | .pfld => some .three
      | _ => none
  | .graphics =>
      match i.op with
      | .fiadd | .fisub | .faddp | .faddz | .form | .fzchkl | .fzchks =>
          if i.pipelined then some .one else none
      | _ => none

/-- Whether the destination of an instruction gets what a pipe retires that it
issues to. -/
def Instruction.delivers (i : Instruction) (p : PipeName) : Bool :=
  i.op != .dualOp || (i.pipelined == (p == .adder))

/-- The pipe that a floating-point instruction names. -/
def FloatPipe.name : FloatPipe → PipeName
  | .adder => .adder
  | .multiplier _ => .multiplier
  | .graphics => .graphics

variable {β : Type}

namespace PipeName

/-- How a pipe stands. -/
def state (p : PipeName) (c : Cpu β) : PipeState :=
  match p with
  | .adder => ⟨c.adder, c.control.fsr.arp⟩
  | .multiplier => ⟨c.multiplier, c.control.fsr.mrp⟩
  | .loads => ⟨c.loads, c.control.fsr.lrp⟩
  | .graphics => ⟨c.graphics, c.control.fsr.irp⟩

variable (p : PipeName) (c : Cpu β)

@[simp] theorem state_writeInt (i : RegNum) (v : Word) :
    p.state (c.writeInt i v) = p.state c := rfl

@[simp] theorem state_setFloats (r : FloatRegs) : p.state (c.setFloats r) = p.state c := rfl

@[simp] theorem state_writeSlot (i : RegNum) (slot : PipeSlot) :
    p.state (c.writeSlot i slot) = p.state c := rfl

@[simp] theorem state_setPsr (r : Psr) : p.state (c.setPsr r) = p.state c := rfl

@[simp] theorem state_autoIncrement (i : Instruction) (addr : VirtAddr) :
    p.state (Execute.autoIncrement c i addr) = p.state c := by
  unfold Execute.autoIncrement
  split <;> rfl

@[simp] theorem state_commit (i : Instruction) (r : AluResult) :
    p.state (Execute.commit c i r) = p.state c := rfl

theorem state_shift (op : AluOp) (i : Instruction) :
    p.state (Execute.shift op i c) = p.state c := by
  unfold Execute.shift
  split <;> rfl

theorem state_branchIf (taken : Bool) (target : Word) :
    p.state (Execute.branchIf taken target c) = p.state c := by
  unfold Execute.branchIf
  split <;> rfl

theorem state_readControl (reg : ControlReg) : p.state (c.readControl reg).2 = p.state c := by
  cases reg with
  | fir =>
      dsimp only [Cpu.readControl]
      split <;> rfl
  | _ => rfl

/-- The precision bits cannot be written. -/
theorem state_writeControl (reg : ControlReg) (v : Word) :
    p.state (c.writeControl reg v) = p.state c := by
  cases reg with
  | fsr =>
      obtain ⟨hlrp, hirp, hmrp, harp⟩ := c.control.fsr.write_kept v
      cases p with
      | adder => exact congrArg (PipeState.mk c.adder) harp
      | multiplier => exact congrArg (PipeState.mk c.multiplier) hmrp
      | loads => exact congrArg (PipeState.mk c.loads) hlrp
      | graphics => exact congrArg (PipeState.mk c.graphics) hirp
  | dirbase =>
      dsimp only [Cpu.writeControl, Cpu.writeDirbase]
      split
      · rfl
      · split <;> rfl
  | _ => rfl

theorem state_ldC (i : Instruction) : p.state (Execute.ldC i c) = p.state c := by
  unfold Execute.ldC
  split
  · rfl
  · next reg _ => exact p.state_readControl c reg

theorem state_stC (i : Instruction) : p.state (Execute.stC i c) = p.state c := by
  unfold Execute.stC
  split
  · rfl
  · exact p.state_writeControl c _ _

end PipeName

/-! ## The law -/

/-- What an instruction does to a pipe, and through it to its destination. -/
def PipeLaw (i : Instruction) (c d : Cpu β) (p : PipeName) : Prop :=
  match i.issueDepth p with
  | none => p.state d = p.state c
  | some depth =>
      p.state d = (p.state c).issue depth (p.state d).stages.first ∧
        (i.delivers p = true →
          d.regs.floats = (c.writeSlot i.dest ((p.state c).stages.last depth)).regs.floats)

namespace PipeLaw

variable {i : Instruction} {c d : Cpu β} {p : PipeName}

theorem of_same (hnone : i.issueDepth p = none) (hsame : p.state d = p.state c) :
    PipeLaw i c d p := by
  unfold PipeLaw
  rw [hnone]
  exact hsame

theorem of_issued {depth : PipeDepth} (slot : PipeSlot) (hdepth : i.issueDepth p = some depth)
    (hissued : p.state d = (p.state c).issue depth slot)
    (hwritten : i.delivers p = true →
      d.regs.floats = (c.writeSlot i.dest ((p.state c).stages.last depth)).regs.floats) :
    PipeLaw i c d p := by
  have hfirst : (p.state d).stages.first = slot := by
    rw [hissued]
    cases depth <;> rfl
  unfold PipeLaw
  rw [hdepth, hfirst]
  exact ⟨hissued, hwritten⟩

end PipeLaw

namespace Execute

variable (c : Cpu β) (i : Instruction) (pipe : FloatPipe) (result : PipeSlot)

theorem state_issue (p : PipeName) :
    p.state (issue c i pipe true result) =
      if p = pipe.name then (p.state c).issue pipe.depth result else p.state c := by
  cases pipe <;> cases p <;> rfl

theorem floats_issue :
    (issue c i pipe true result).regs.floats =
      (c.writeSlot i.dest ((pipe.name.state c).stages.last pipe.depth)).regs.floats := by
  cases pipe <;> rfl

end Execute

/-- An instruction that ends by delivering its result, in a state where the
pipes and the floating registers are as they were. -/
theorem PipeLaw.of_issue {i : Instruction} {c m : Cpu β} {p : PipeName} {pipe : FloatPipe}
    {pipelined : Bool} (hstate : ∀ q : PipeName, q.state m = q.state c)
    (hfloats : m.regs.floats = c.regs.floats)
    (hdepth : i.issueDepth p = if p = pipe.name ∧ pipelined then some pipe.depth else none)
    (result : PipeSlot) : PipeLaw i c (Execute.issue m i pipe pipelined result) p := by
  cases pipelined with
  | false =>
      rw [if_neg (by simp)] at hdepth
      exact .of_same hdepth (hstate p)
  | true =>
      have hissued := Execute.state_issue m i pipe result p
      rw [hstate p] at hissued
      by_cases hp : p = pipe.name
      · rw [if_pos ⟨hp, rfl⟩] at hdepth
        rw [if_pos hp] at hissued
        refine .of_issued result hdepth hissued fun _ => ?_
        rw [Execute.floats_issue, hp, hstate]
        simp only [Cpu.writeSlot, Cpu.setFloats, hfloats]
      · rw [if_neg (fun h => hp h.1)] at hdepth
        rw [if_neg hp] at hissued
        exact .of_same hdepth hissued

/-- A compare issues to the adder what nobody reads. -/
theorem setCompare_pipes {i : Instruction}
    (hdepth : ∀ p, i.issueDepth p = if p = .adder ∧ i.pipelined then some .three else none)
    (found : Bool) (c : Cpu β) (p : PipeName) :
    PipeLaw i c (Execute.setCompare i found c) p := by
  have hnoted : ∀ noted : Cpu β, (∀ q : PipeName, q.state noted = q.state c) →
      noted.regs.floats = c.regs.floats →
      PipeLaw i c (if i.pipelined then
        Execute.issue noted i .adder true (.ofBits 0#64 i.doubleSource) else noted) p := by
    intro noted hstate hfloats
    have hp := hdepth p
    cases hpipelined : i.pipelined with
    | false =>
        rw [hpipelined, if_neg (by simp)] at hp
        exact .of_same hp (hstate p)
    | true =>
        rw [hpipelined] at hp
        have hadder : i.issueDepth p =
            if p = FloatPipe.adder.name ∧ true then some FloatPipe.adder.depth else none := hp
        exact .of_issue hstate hfloats hadder _
  unfold Execute.setCompare
  dsimp only
  apply hnoted
  · intro q
    split
    · cases q <;> rfl
    · rfl
  · split
    · rfl
    · rfl

/-- A dual operation issues to the adder and to the multiplier. -/
theorem dualOp_pipes [Bus β] {i : Instruction} (hop : i.op = .dualOp) (c : Cpu β)
    (p : PipeName) : Ends c (fun _ d => PipeLaw i c d p) (Execute.dualOp i c) := by
  apply guarded_ends
  have hwritten : ∀ {d : Cpu β} {pipelined : Bool}, i.pipelined = pipelined →
      d.regs.floats = (c.writeSlot i.dest (Execute.dualRetired c i)).regs.floats →
      d.regs.floats = (c.writeSlot i.dest (Execute.lastStage c
        (if pipelined then .adder else Execute.dualMultiplier i))).regs.floats := by
    intro d pipelined hp hd
    rw [hd, Execute.dualRetired, hp]
  cases p with
  | adder =>
      have hdepth : i.issueDepth .adder = some .three := by simp [Instruction.issueDepth, hop]
      refine .of_issued (Execute.dualSum c i) hdepth rfl fun hdelivers => ?_
      have hpipelined : i.pipelined = true := by
        simpa [Instruction.delivers, hop] using hdelivers
      exact hwritten hpipelined rfl
  | multiplier =>
      have hdepth : i.issueDepth .multiplier = some (multiplierDepth i.doubleSource false) := by
        simp [Instruction.issueDepth, hop]
      refine .of_issued (Execute.dualProduct c i) hdepth rfl fun hdelivers => ?_
      have hpipelined : i.pipelined = false := by
        have hother : (PipeName.multiplier == PipeName.adder) = false := rfl
        simpa [Instruction.delivers, hop, hother] using hdelivers
      exact hwritten hpipelined rfl
  | loads => exact .of_same (by simp [Instruction.issueDepth, hop]) rfl
  | graphics => exact .of_same (by simp [Instruction.issueDepth, hop]) rfl

section Execution

variable [Bus β] {c d : Cpu β}

theorem LookedUp.state_eq (h : LookedUp c d) (p : PipeName) : p.state d = p.state c := by
  obtain ⟨mmu, icache, board, -, rfl⟩ := h
  cases p <;> rfl

omit [Bus β] in
theorem Stored.state_eq (h : Stored c d) (p : PipeName) : p.state d = p.state c := by
  obtain ⟨mmu, icache, board, rfl⟩ := h
  cases p <;> rfl

omit [Bus β] in
theorem Execute.floats_autoIncrement (c : Cpu β) (i : Instruction) (addr : VirtAddr) :
    (autoIncrement c i addr).regs.floats = c.regs.floats := by
  unfold autoIncrement
  split <;> rfl

/-- A load through the pipe that has completed is not one of a quad, and has read memory. -/
theorem pfld_of_ok {i : Instruction} (h : Execute.pfld i c = .ok () d) :
    Execute.floatWidth i ≠ .quad ∧ ∃ v e,
      readMem (Execute.effectiveAddr c i (Execute.floatWidth i)) (Execute.floatWidth i) c =
        .ok v e ∧
      d = Execute.autoIncrement (Execute.retireLoad e i (Execute.floatWidth i) v) i
        (Execute.effectiveAddr c i (Execute.floatWidth i)) := by
  by_cases hquad : Execute.floatWidth i = .quad
  · rw [Execute.pfld, if_pos hquad] at h
    cases h
  · rw [Execute.pfld, if_neg hquad, Exec.bind_apply, Exec.get_apply] at h
    exact ⟨hquad, Exec.ok_of_bind_modify h⟩

/-- A pipelined load issues what it has loaded. -/
theorem pfld_pipes {i : Instruction} (hop : i.op = .pfld) (c : Cpu β) (p : PipeName) :
    Ends c (fun _ d => PipeLaw i c d p) (Execute.pfld i c) := by
  refine pfld_ends i c fun d v hd => ?_
  obtain ⟨mmu, icache, board, -, rfl⟩ := hd
  cases p with
  | loads =>
      have hdepth : i.issueDepth .loads = some .three := by simp [Instruction.issueDepth, hop]
      refine .of_issued _ hdepth (PipeName.state_autoIncrement ..) fun _ => ?_
      rw [Execute.floats_autoIncrement]
      rfl
  | _ =>
      refine .of_same (by simp [Instruction.issueDepth, hop]) ?_
      rw [PipeName.state_autoIncrement]
      rfl

/-- Every instruction that completes has kept the law for every pipe. -/
theorem execute_pipes (i : Instruction) (slot : Exec β Unit)
    (straight : i.op.isDelayedBranch = false) (c : Cpu β) (p : PipeName) :
    Ends c (fun _ d => PipeLaw i c d p) (execute slot i c) := by
  have hissue : ∀ {op : FloatOp} {pipe : FloatPipe} {pipelined : Bool},
      i.issueDepth p = (if p = pipe.name ∧ pipelined then some pipe.depth else none) →
      PipeLaw i c (Execute.binary op pipe pipelined i c) p :=
    fun hdepth => .of_issue (fun _ => rfl) rfl hdepth _
  unfold execute
  cases hop : i.op <;> dsimp only
  case bri | calli | br | call | bcT | bncT | bla =>
    simp [hop, Op.isDelayedBranch] at straight
  case dualOp => exact dualOp_pipes hop c p
  -- These issue to one pipe, if flag P says so.
  case fadd | fsub | fmul | pfmul3 =>
    refine guarded_ends c _ (hissue ?_)
    cases p <;> simp [Instruction.issueDepth, hop, FloatPipe.name, FloatPipe.depth, multiplierDepth]
  case famov =>
    refine guarded_ends c _ (.of_issue (fun _ => rfl) rfl ?_ _)
    cases p <;> simp [Instruction.issueDepth, hop, FloatPipe.name, FloatPipe.depth]
  case fix | ftrunc | fiadd | fisub =>
    refine .ok (.of_issue (fun _ => rfl) rfl ?_ _)
    cases p <;> simp [Instruction.issueDepth, hop, FloatPipe.name, FloatPipe.depth]
  case faddp | faddz | form | fzchkl | fzchks =>
    refine .ok (.of_issue (fun q => by cases q <;> rfl) rfl ?_ _)
    cases p <;> simp [Instruction.issueDepth, hop, FloatPipe.name, FloatPipe.depth]
  case pfgt | pfeq =>
    refine .ok (setCompare_pipes (fun q => ?_) _ c p)
    cases q <;> simp [Instruction.issueDepth, hop]
  case pfld => exact pfld_pipes hop c p
  -- The rest issue to none.
  all_goals
    have hnone : i.issueDepth p = none := by
      cases p <;> simp [Instruction.issueDepth, hop]
  case illegal | trap => exact .raise (by decide) (.refl c)
  case lock | unlock => exact .ok (.of_same hnone rfl)
  case intovr => exact intovr_ends c (.of_same hnone rfl)
  case ldInt => exact ldInt_ends i c fun _ _ hd => .of_same hnone (hd.state_eq p)
  case stInt => exact stInt_ends i c fun _ hd => .of_same hnone (hd.state_eq p)
  case fld =>
    refine fld_ends i c fun d v hd => .of_same hnone ?_
    rw [PipeName.state_autoIncrement]
    exact hd.state_eq p
  case fst =>
    refine fst_ends i c fun d addr hd => .of_same hnone ?_
    rw [PipeName.state_autoIncrement]
    exact hd.state_eq p
  case pstD =>
    refine pstD_ends i c fun d pm addr hd => .of_same hnone ?_
    rw [PipeName.state_autoIncrement]
    exact hd.state_eq p
  case ldC => exact .ok (.of_same hnone (p.state_ldC c i))
  case stC => exact .ok (.of_same hnone (p.state_stC c i))
  case bc | bnc | bte | btne => exact .ok (.of_same hnone (p.state_branchIf c _ _))
  case frcp | frsqr => exact reciprocal_ends i c _ fun _ => .of_same hnone rfl
  case fmlow => exact guarded_ends c _ (.of_same hnone rfl)
  case flush => exact .ok (.of_same hnone (p.state_autoIncrement c i _))
  case shl | shr | shra => exact .ok (.of_same hnone (p.state_shift c _ i))
  all_goals exact .ok (.of_same hnone rfl)

end Execution

end I860
