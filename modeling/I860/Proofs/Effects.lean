import I860.Cpu.Fetch
import I860.Execute.Instruction
import I860.Proofs.AccessedBits
import I860.Proofs.Exec

/-!
# What an instruction can do

Apart from the delayed branches, which run other instructions, an instruction
has one of two outcomes (`execute_ends`). It completes, and then what it did
to the processor is a sequence of the few kinds of `Effect`. Or it is refused,
and then it has done nothing but look up addresses, and the trap is on record.

Most of the routines fall under one effect, `compute`. `Cpu.frame` blanks out
all that they write, and a routine of this kind is one that leaves the frame
as it is. The program counter is part of the frame: the only way to move it is
to jump, which is an effect of its own. What follows for a register that no
routine writes is then read off the frame, and never off the routines.
-/

namespace I860

variable {β : Type}

namespace Cpu

/-- The processor with everything blanked out that instructions compute: the
data registers, the pipes, the flags that go with results and the pending
compare. -/
def frame (c : Cpu β) : Cpu β :=
  { c with
    regs := .zero
    control :=
      { c.control with
        psr := { c.control.psr with cc := false, lcc := false, sc := 0#5, pm := 0#8 }
        epsr := { c.control.epsr with of := false }
        fsr :=
          { c.control.fsr with lrp := false, irp := false, mrp := false, arp := false } }
    adder := .empty
    multiplier := .empty
    loads := .empty
    graphics := .empty
    compareCode := false
    comparePending := false }

@[simp] theorem frame_writeInt (c : Cpu β) (i : RegNum) (v : Word) :
    (c.writeInt i v).frame = c.frame := rfl

@[simp] theorem frame_setFloats (c : Cpu β) (r : FloatRegs) :
    (c.setFloats r).frame = c.frame := rfl

@[simp] theorem frame_writeSlot (c : Cpu β) (i : RegNum) (slot : PipeSlot) :
    (c.writeSlot i slot).frame = c.frame := rfl

/-- The processor with a trap on record. A floating-point trap is recorded in
the floating-point status as well. -/
def faulted (c : Cpu β) (kind : TrapKind) : Cpu β :=
  { c with
    control :=
      { c.control with
        psr := c.control.psr.setTrap kind
        fsr := { c.control.fsr with se := c.control.fsr.se || kind = .floatingPoint } } }

end Cpu

/-! ## The routines that only compute -/

namespace Execute

open Cpu

@[simp] theorem frame_commit (c : Cpu β) (i : Instruction) (r : AluResult) :
    (commit c i r).frame = c.frame := rfl

@[simp] theorem frame_arith (op : AluOp) (i : Instruction) (c : Cpu β) :
    (arith op i c).frame = c.frame := rfl

@[simp] theorem frame_logic (op : AluOp) (high : Bool) (i : Instruction) (c : Cpu β) :
    (logic op high i c).frame = c.frame := rfl

@[simp] theorem frame_shift (op : AluOp) (i : Instruction) (c : Cpu β) :
    (shift op i c).frame = c.frame := by
  simp only [shift, frame_commit]
  split
  · rfl
  · rfl

@[simp] theorem frame_shiftPair (i : Instruction) (c : Cpu β) :
    (shiftPair i c).frame = c.frame := rfl

@[simp] theorem frame_autoIncrement (c : Cpu β) (i : Instruction) (addr : VirtAddr) :
    (autoIncrement c i addr).frame = c.frame := by
  unfold autoIncrement
  split
  · exact frame_writeInt c i.src2 addr
  · rfl

@[simp] theorem frame_retireLoad (c : Cpu β) (i : Instruction) (width : Width) (v : Quad) :
    (retireLoad c i width v).frame = c.frame := rfl

@[simp] theorem frame_setPrecision (c : Cpu β) (pipe : FloatPipe) (double : Bool) :
    (setPrecision c pipe double).frame = c.frame := by
  cases pipe <;> rfl

@[simp] theorem frame_advance (c : Cpu β) (pipe : FloatPipe) (result : PipeSlot) :
    (advance c pipe result).frame = c.frame := by
  cases pipe <;> rfl

@[simp] theorem frame_issue (c : Cpu β) (i : Instruction) (pipe : FloatPipe)
    (pipelined : Bool) (result : PipeSlot) :
    (issue c i pipe pipelined result).frame = c.frame := by
  unfold issue
  split
  · simp
  · simp

@[simp] theorem frame_binary (op : FloatOp) (pipe : FloatPipe) (pipelined : Bool)
    (i : Instruction) (c : Cpu β) :
    (binary op pipe pipelined i c).frame = c.frame := by
  simp [binary]

@[simp] theorem frame_fix (truncate : Bool) (i : Instruction) (c : Cpu β) :
    (fix truncate i c).frame = c.frame := by
  simp [fix]

@[simp] theorem frame_setCompare (i : Instruction) (found : Bool) (c : Cpu β) :
    (setCompare i found c).frame = c.frame := by
  have hnoted : ∀ noted : Cpu β, noted.frame = c.frame →
      (if i.pipelined then issue noted i .adder true (.ofBits 0#64 i.doubleSource)
        else noted).frame = c.frame := by
    intro noted h
    split
    · rw [frame_issue, h]
    · exact h
  unfold setCompare
  apply hnoted
  split
  · rfl
  · rfl

@[simp] theorem frame_pfgt (i : Instruction) (c : Cpu β) : (pfgt i c).frame = c.frame := by
  simp [pfgt]

@[simp] theorem frame_pfeq (i : Instruction) (c : Cpu β) : (pfeq i c).frame = c.frame := by
  simp [pfeq]

@[simp] theorem frame_integerSum (subtract : Bool) (i : Instruction) (c : Cpu β) :
    (integerSum subtract i c).frame = c.frame := by
  simp [integerSum]

@[simp] theorem frame_mergingSum (rule : Graphics.MergeRule) (i : Instruction)
    (c : Cpu β) : (mergingSum rule i c).frame = c.frame := by
  simp only [mergingSum, frame_issue]
  rfl

@[simp] theorem frame_form (i : Instruction) (c : Cpu β) : (form i c).frame = c.frame := by
  simp only [form, frame_issue]
  rfl

@[simp] theorem frame_depthCheck (long : Bool) (i : Instruction) (c : Cpu β) :
    (depthCheck long i c).frame = c.frame := by
  simp only [depthCheck, frame_issue]
  rfl

@[simp] theorem frame_ixfr (i : Instruction) (c : Cpu β) : (ixfr i c).frame = c.frame := rfl

@[simp] theorem frame_fxfr (i : Instruction) (c : Cpu β) : (fxfr i c).frame = c.frame := rfl

@[simp] theorem frame_flush (i : Instruction) (c : Cpu β) : (flush i c).frame = c.frame := by
  simp [flush]

@[simp] theorem frame_faddp (i : Instruction) (c : Cpu β) : (faddp i c).frame = c.frame := by
  simp [faddp]

@[simp] theorem frame_faddz (i : Instruction) (c : Cpu β) : (faddz i c).frame = c.frame := by
  simp [faddz]

end Execute

/-! ## Effects and outcomes -/

/-- One thing that an instruction does to the processor. -/
inductive Effect (c : Cpu β) : Cpu β → Prop
  | memory (mmu : Mmu) (icache : InstructionCache) (board : β) :
      Effect c { c with mmu := mmu, icache := icache, board := board }
  | compute {d : Cpu β} (framed : d.frame = c.frame) : Effect c d
  | jump (target : Word) : Effect c (c.jump target)
  | readControl (reg : ControlReg) : Effect c (c.readControl reg).2
  | writeControl (reg : ControlReg) (v : Word) : Effect c (c.writeControl reg v)

/-- What an instruction does that completes. -/
abbrev Effects : Cpu β → Cpu β → Prop := Relation.ReflTransGen Effect

theorem ldC_effects (i : Instruction) (c : Cpu β) : Effects c (Execute.ldC i c) := by
  unfold Execute.ldC
  split
  · exact .refl
  · exact .tail (.single (.readControl _)) (.compute (Cpu.frame_writeInt ..))

theorem stC_effects (i : Instruction) (c : Cpu β) : Effects c (Execute.stC i c) := by
  unfold Execute.stC
  split
  · exact .refl
  · exact .single (.writeControl _ _)

theorem branchIf_effects (taken : Bool) (target : Word) (c : Cpu β) :
    Effects c (Execute.branchIf taken target c) := by
  unfold Execute.branchIf
  split
  · exact .single (.jump target)
  · exact .refl

variable [Bus β]

/-- Addresses have been looked up, in the caches or through the page tables,
and nothing else has happened. -/
def LookedUp (c d : Cpu β) : Prop :=
  ∃ (mmu : Mmu) (icache : InstructionCache) (board : β),
    MarksAccessed c.order c.control.dirbase.dtb c.board board ∧
      d = { c with mmu := mmu, icache := icache, board := board }

namespace LookedUp

theorem refl (c : Cpu β) : LookedUp c c :=
  ⟨c.mmu, c.icache, c.board, .refl, rfl⟩

theorem trans {c d e : Cpu β} (h : LookedUp c d) (h' : LookedUp d e) : LookedUp c e := by
  obtain ⟨mmu, icache, board, hmarks, rfl⟩ := h
  obtain ⟨mmu', icache', board', hmarks', rfl⟩ := h'
  exact ⟨mmu', icache', board', hmarks.trans hmarks', rfl⟩

theorem effect {c d : Cpu β} (h : LookedUp c d) : Effect c d := by
  obtain ⟨mmu, icache, board, -, rfl⟩ := h
  exact .memory mmu icache board

end LookedUp

/-- Addresses have been looked up and memory has been written to, and nothing
else has happened. -/
def Stored (c d : Cpu β) : Prop :=
  ∃ (mmu : Mmu) (icache : InstructionCache) (board : β),
    d = { c with mmu := mmu, icache := icache, board := board }

theorem LookedUp.stored {c d : Cpu β} (h : LookedUp c d) (board : β) :
    Stored c { d with board := board } := by
  obtain ⟨mmu, icache, _, -, rfl⟩ := h
  exact ⟨mmu, icache, board, rfl⟩

omit [Bus β] in
theorem Stored.effect {c d : Cpu β} (h : Stored c d) : Effect c d := by
  obtain ⟨mmu, icache, board, rfl⟩ := h
  exact .memory mmu icache board

/-- How a program ends when it is run from `c`: it completes, or it is refused
and a trap is on record. Nothing has been done before it is refused. -/
inductive Ends {α : Type} (c : Cpu β) (completed : α → Cpu β → Prop) :
    EStateM.Result Fault (Cpu β) α → Prop
  | ok {a : α} {d : Cpu β} (h : completed a d) : Ends c completed (.ok a d)
  | refused {d : Cpu β} (kind : TrapKind) (h : LookedUp c d) :
      Ends c completed (.error (.trap (.ofKind kind)) (d.faulted kind))

namespace Ends

variable {α γ : Type} {c : Cpu β}

/-- Looking addresses up beforehand makes no difference. -/
theorem after_lookup {d : Cpu β} {completed : α → Cpu β → Prop}
    {r : EStateM.Result Fault (Cpu β) α} (h : LookedUp c d) (he : Ends d completed r) :
    Ends c completed r := by
  cases he with
  | ok hd => exact .ok hd
  | refused kind hl => exact .refused kind (h.trans hl)

theorem imp {P Q : α → Cpu β → Prop} {r : EStateM.Result Fault (Cpu β) α} (he : Ends c P r)
    (h : ∀ a d, P a d → Q a d) : Ends c Q r := by
  cases he with
  | ok hd => exact .ok (h _ _ hd)
  | refused kind hlooked => exact .refused kind hlooked

/-- What follows a program that can be refused has to complete. -/
theorem bind {x : Exec β α} {f : α → Exec β γ} {P : α → Cpu β → Prop}
    {Q : γ → Cpu β → Prop} (hx : Ends c P (x c))
    (hf : ∀ a d, P a d → ∃ b e, f a d = .ok b e ∧ Q b e) :
    Ends c Q ((x >>= f) c) := by
  rw [Exec.bind_apply]
  generalize x c = r at hx
  cases hx with
  | ok h =>
      obtain ⟨b, e, hfe, hq⟩ := hf _ _ h
      dsimp only
      rw [hfe]
      exact .ok hq
  | refused kind h => exact .refused kind h

/-- A trap raised by a program that has only looked addresses up. No access
raises a floating-point trap. -/
theorem raise {d : Cpu β} {completed : α → Cpu β → Prop} {kind : TrapKind}
    (hk : kind ≠ .floatingPoint) (h : LookedUp c d) :
    Ends c completed (raise kind d) := by
  rw [Exec.raise_apply]
  have hf : d.setPsr (d.control.psr.setTrap kind) = d.faulted kind := by
    simp [Cpu.faulted, Cpu.setPsr, hk]
  rw [hf]
  exact .refused kind h

end Ends

/-! ## Memory accesses -/

section Lookup

variable (c : Cpu β)

theorem translate_ends (vaddr : VirtAddr) (access : AccessKind) :
    Ends c (fun _ d => LookedUp c d) (translate vaddr access c) := by
  have hmarks := Mmu.translate_marksAccessed c.mmu c.order c.board c.control.dirbase vaddr
    access ⟨c.control.psr.u, c.control.epsr.wp⟩
  have hkind := Mmu.translate_kind c.mmu c.order c.board c.control.dirbase vaddr
    access ⟨c.control.psr.u, c.control.epsr.wp⟩
  unfold translate
  rw [Exec.bind_apply, Exec.get_apply]
  dsimp only
  generalize c.mmu.translate c.order c.board c.control.dirbase vaddr access
    ⟨c.control.psr.u, c.control.epsr.wp⟩ = r at hmarks hkind ⊢
  obtain ⟨result, mmu, board⟩ := r
  have hlooked : LookedUp c { c with mmu := mmu, board := board } :=
    ⟨mmu, c.icache, board, hmarks, rfl⟩
  rw [Exec.bind_apply, Exec.set_apply]
  cases result with
  | ok paddr => exact .ok hlooked
  | error kind => exact .raise (hkind kind rfl) hlooked

/-- Whether an access to data is refused before its address is translated. -/
def Cpu.refusesData (vaddr : VirtAddr) (width : Width) (access : AccessKind) : Bool :=
  (vaddr &&& ~~~width.alignMask != 0#32 && c.params.trapMisaligned) ||
    c.hitsBreakpoint vaddr width access

theorem checkData_eq (vaddr : VirtAddr) (width : Width) (access : AccessKind) :
    checkData vaddr width access c =
      if c.refusesData vaddr width access then raise .dataAccess c
      else translate vaddr access c := by
  unfold checkData
  rw [Exec.bind_apply, Exec.get_apply]
  dsimp only
  rw [Exec.ite_apply, Exec.ite_apply, Cpu.refusesData]
  cases vaddr &&& ~~~width.alignMask != 0#32 && c.params.trapMisaligned <;>
    cases c.hitsBreakpoint vaddr width access <;> rfl

theorem checkData_ends (vaddr : VirtAddr) (width : Width) (access : AccessKind) :
    Ends c (fun _ d => LookedUp c d) (checkData vaddr width access c) := by
  rw [checkData_eq]
  split
  · exact .raise (by decide) (.refl c)
  · exact translate_ends c vaddr access

theorem readMem_ends (vaddr : VirtAddr) (width : Width) :
    Ends c (fun _ d => LookedUp c d) (readMem vaddr width c) :=
  (checkData_ends c vaddr width .read).bind fun _ d hd => ⟨_, d, rfl, hd⟩

theorem writeMem_ends (vaddr : VirtAddr) (width : Width) (value : Quad) :
    Ends c (fun _ d => Stored c d) (writeMem vaddr width value c) :=
  (checkData_ends c vaddr width .write).bind fun _ _ hd => ⟨_, _, rfl, hd.stored _⟩

theorem writeMasked_ends (vaddr : VirtAddr) (value : Double) (mask : Byte) :
    Ends c (fun _ d => Stored c d) (writeMasked vaddr value mask c) :=
  (checkData_ends c vaddr .double .write).bind fun _ _ hd => ⟨_, _, rfl, hd.stored _⟩

theorem fetchPair_ends (pc : VirtAddr) :
    Ends c (fun _ d => LookedUp c d) (fetchPair pc c) := by
  refine (translate_ends c _ .fetch).bind fun _ d hd => ⟨_, _, rfl, hd.trans ?_⟩
  exact ⟨d.mmu, _, d.board, .refl, rfl⟩

theorem fetch_ends (pc : VirtAddr) : Ends c (fun _ d => LookedUp c d) (fetch pc c) := by
  have hcounted : LookedUp c { c with icache := (c.icache.lookup pc).2 } :=
    ⟨c.mmu, _, c.board, .refl, rfl⟩
  unfold fetch
  rw [Exec.bind_apply, Exec.get_apply]
  dsimp only
  rw [Exec.bind_apply, Exec.set_apply]
  dsimp only
  cases (c.icache.lookup pc).1 with
  | some pair => exact .ok hcounted
  | none =>
      have hpair := fetchPair_ends { c with icache := (c.icache.lookup pc).2 } pc
      exact .after_lookup hcounted (hpair.bind fun _ d hd => ⟨_, d, rfl, hd⟩)

end Lookup

theorem lookedUp_of_fetch {c d : Cpu β} {pc : VirtAddr} {w : Word} (h : fetch pc c = .ok w d) :
    LookedUp c d := by
  have hends := fetch_ends c pc
  rw [h] at hends
  cases hends with
  | ok hlooked => exact hlooked

/-! ## Every instruction that is no delayed branch

For each routine that can be refused, what has to hold for it to end in a
certain way: `completed` has to hold of the states that it can complete in. -/

section Routines

variable (i : Instruction) (c : Cpu β) {completed : Unit → Cpu β → Prop}

theorem guarded_ends (refused : Bool) {compute : Cpu β → Cpu β}
    (h : completed () (compute c)) : Ends c completed (Execute.guarded refused compute c) := by
  unfold Execute.guarded
  rw [Exec.ite_apply]
  split
  · exact .raise (by decide) (.refl c)
  · exact .ok h

theorem intovr_ends (h : completed () c) : Ends c completed (Execute.intovr c) := by
  unfold Execute.intovr
  rw [Exec.bind_apply, Exec.get_apply]
  dsimp only
  rw [Exec.ite_apply]
  split
  · exact .raise (by decide) (.refl c)
  · exact .ok h

theorem ldInt_ends
    (h : ∀ d v, LookedUp c d →
      completed () (d.writeInt i.dest (Execute.extendLoaded (Execute.intWidth i) v))) :
    Ends c completed (Execute.ldInt i c) := by
  unfold Execute.ldInt
  rw [Exec.bind_apply, Exec.get_apply]
  exact (readMem_ends c _ _).bind fun v d hd => ⟨_, _, rfl, h d v hd⟩

theorem stInt_ends (h : ∀ d, Stored c d → completed () d) :
    Ends c completed (Execute.stInt i c) := by
  unfold Execute.stInt
  rw [Exec.bind_apply, Exec.get_apply]
  exact (writeMem_ends c _ _ _).imp fun _ d hd => h d hd

theorem fld_ends
    (h : ∀ d v, LookedUp c d →
      completed ()
        (Execute.autoIncrement
          (d.setFloats
            (Execute.writeLoaded d.regs.floats i.dest (Execute.floatWidth i) v))
          i (Execute.effectiveAddr c i (Execute.floatWidth i)))) :
    Ends c completed (Execute.fld i c) := by
  unfold Execute.fld
  rw [Exec.bind_apply, Exec.get_apply]
  exact (readMem_ends c _ _).bind fun v d hd => ⟨_, _, rfl, h d v hd⟩

theorem pfld_ends
    (h : ∀ d v, LookedUp c d →
      completed ()
        (Execute.autoIncrement (Execute.retireLoad d i (Execute.floatWidth i) v) i
          (Execute.effectiveAddr c i (Execute.floatWidth i)))) :
    Ends c completed (Execute.pfld i c) := by
  unfold Execute.pfld
  rw [Exec.ite_apply]
  split
  · exact .raise (by decide) (.refl c)
  · rw [Exec.bind_apply, Exec.get_apply]
    exact (readMem_ends c _ _).bind fun v d hd => ⟨_, _, rfl, h d v hd⟩

theorem fst_ends (h : ∀ d addr, Stored c d → completed () (Execute.autoIncrement d i addr)) :
    Ends c completed (Execute.fst i c) := by
  unfold Execute.fst
  rw [Exec.bind_apply, Exec.get_apply]
  exact (writeMem_ends c _ _ _).bind fun _ d hd => ⟨_, _, rfl, h d _ hd⟩

theorem pstD_ends
    (h : ∀ d pm addr, Stored c d →
      completed ()
        (Execute.autoIncrement (d.setPsr { d.control.psr with pm := pm }) i addr)) :
    Ends c completed (Execute.pstD i c) := by
  unfold Execute.pstD
  rw [Exec.bind_apply, Exec.get_apply]
  exact (writeMasked_ends c _ _ _).bind fun _ d hd => ⟨_, _, rfl, h d _ _ hd⟩

/-- The only trap that leaves a mark in the floating-point status. -/
theorem reciprocal_ends (root : Bool)
    (h : ∀ v, completed ()
      (c.writeSlot i.dest (Execute.reciprocalBits c.fpu root i.doubleResult v))) :
    Ends c completed (Execute.reciprocal root i c) := by
  unfold Execute.reciprocal
  rw [Exec.ite_apply]
  split
  · exact .raise (by decide) (.refl c)
  · rw [Exec.bind_apply, Exec.get_apply]
    dsimp only
    rw [Exec.ite_apply]
    split
    · rw [Exec.bind_apply, Exec.modify_apply]
      dsimp only
      rw [Exec.raise_apply]
      have hf : (c.setFsr { c.control.fsr with se := true }).setPsr
          (c.control.psr.setTrap .floatingPoint) = c.faulted .floatingPoint := by
        simp [Cpu.faulted, Cpu.setFsr, Cpu.setPsr]
      exact hf ▸ .refused .floatingPoint (.refl c)
    · exact .ok (h _)

end Routines

section Instructions

variable (i : Instruction) (c : Cpu β)

/-- What an instruction does that is no delayed branch. -/
theorem execute_ends (slot : Exec β Unit) (h : i.op.isDelayedBranch = false) :
    Ends c (fun _ d => Effects c d) (execute slot i c) := by
  have hcomputed : ∀ {d e : Cpu β}, Effect c d → e.frame = d.frame → Effects c e :=
    fun hd he => .tail (.single hd) (.compute he)
  unfold execute
  cases hop : i.op <;> dsimp only
  case bri | calli | br | call | bcT | bncT | bla => simp [hop, Op.isDelayedBranch] at h
  case illegal | trap => exact .raise (by decide) (.refl c)
  case lock | unlock => exact .ok .refl
  case ldInt =>
    exact ldInt_ends i c fun _ _ hd => hcomputed hd.effect (Cpu.frame_writeInt ..)
  case stInt => exact stInt_ends i c fun _ hd => .single hd.effect
  case fld => exact fld_ends i c fun _ _ hd => hcomputed hd.effect (by simp)
  case pfld => exact pfld_ends i c fun _ _ hd => hcomputed hd.effect (by simp)
  case fst =>
    exact fst_ends i c fun _ _ hd => hcomputed hd.effect (Execute.frame_autoIncrement ..)
  case pstD =>
    exact pstD_ends i c fun _ _ _ hd => hcomputed hd.effect (Execute.frame_autoIncrement ..)
  case ldC => exact .ok (ldC_effects i c)
  case stC => exact .ok (stC_effects i c)
  case bc | bnc | bte | btne => exact .ok (branchIf_effects ..)
  case intovr => exact intovr_ends c .refl
  case dualOp =>
    refine guarded_ends c _ (.single (.compute ?_))
    rw [Execute.frame_advance, Execute.frame_setPrecision, Execute.frame_advance,
      Execute.frame_setPrecision, Cpu.frame_writeSlot]
    rfl
  case frcp | frsqr =>
    exact reciprocal_ends i c _ fun _ => .single (.compute (Cpu.frame_writeSlot ..))
  case fmul | pfmul3 | fadd | fsub =>
    exact guarded_ends c _ (.single (.compute (Execute.frame_binary ..)))
  case fmlow => exact guarded_ends c _ (.single (.compute (Cpu.frame_setFloats ..)))
  case famov => exact guarded_ends c _ (.single (.compute (Execute.frame_issue ..)))
  -- The rest only compute.
  all_goals exact .ok (.single (.compute (by simp)))

end Instructions

end I860
