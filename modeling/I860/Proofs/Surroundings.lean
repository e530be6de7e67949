import I860.Proofs.Effects

/-!
# Computing in any surroundings

A routine that only computes works on registers and pipes. What else the
processor carries along, the board with the two buffers in front of it, the
interrupt pin, the counts and the listing, neither matters to such a routine nor
is changed by it: run in other surroundings, it does the same and leaves these
as they are (`Computes`). That the surroundings are not changed need not be
asked for. It is the case in which they are put in place of themselves
(`Computes.surroundings_eq`).

The routines are gone through once, one lemma for each, and each of them by the
routines that it calls.
-/

namespace I860

variable {β : Type}

/-- What a routine that only computes hands through. -/
structure Surroundings (β : Type) where
  mmu : Mmu
  icache : InstructionCache
  board : β
  irqLine : Bool
  stats : Stats
  listing : Option (Word → Instruction → String)

namespace Cpu

def surroundings (c : Cpu β) : Surroundings β :=
  ⟨c.mmu, c.icache, c.board, c.irqLine, c.stats, c.listing⟩

/-- The processor in other surroundings. -/
def within (c : Cpu β) (s : Surroundings β) : Cpu β :=
  { c with
    mmu := s.mmu
    icache := s.icache
    board := s.board
    irqLine := s.irqLine
    stats := s.stats
    listing := s.listing }

variable (c : Cpu β) (s s' : Surroundings β)

@[simp] theorem within_surroundings : c.within c.surroundings = c := rfl

@[simp] theorem within_within : (c.within s).within s' = c.within s' := rfl

@[simp] theorem surroundings_within : (c.within s).surroundings = s := rfl

end Cpu

/-- The routine only computes. It may look at the byte order and at the directory
base, but leaves them alone. -/
structure Computes (f : Cpu β → Cpu β) : Prop where
  within : ∀ c s, f (c.within s) = (f c).within s
  order : ∀ c, (f c).order = c.order
  dirbase : ∀ c, (f c).control.dirbase = c.control.dirbase

namespace Computes

variable {f g : Cpu β → Cpu β}

theorem of_frame (hwithin : ∀ c s, f (c.within s) = (f c).within s)
    (hframe : ∀ c, (f c).frame = c.frame) : Computes f :=
  ⟨hwithin, fun c => congrArg (·.order) (hframe c),
    fun c => congrArg (·.control.dirbase) (hframe c)⟩

protected theorem id : Computes (id : Cpu β → Cpu β) := ⟨fun _ _ => rfl, fun _ => rfl, fun _ => rfl⟩

theorem comp (hg : Computes g) (hf : Computes f) : Computes fun c => g (f c) where
  within c s := by rw [hf.within, hg.within]
  order c := by rw [hg.order, hf.order]
  dirbase c := by rw [hg.dirbase, hf.dirbase]

theorem surroundings_eq (h : Computes f) (c : Cpu β) :
    (f c).surroundings = c.surroundings := by
  have hsame := h.within c c.surroundings
  rw [c.within_surroundings] at hsame
  rw [hsame, Cpu.surroundings_within]

end Computes

namespace Execute

variable (c : Cpu β) (s : Surroundings β) (i : Instruction)

@[simp] theorem within_writeSlot (dest : RegNum) (slot : PipeSlot) :
    (c.within s).writeSlot dest slot = (c.writeSlot dest slot).within s := rfl

@[simp] theorem within_autoIncrement (addr : VirtAddr) :
    autoIncrement (c.within s) i addr = (autoIncrement c i addr).within s := by
  unfold autoIncrement
  split <;> rfl

@[simp] theorem within_flush : flush i (c.within s) = (flush i c).within s :=
  within_autoIncrement c s i _

@[simp] theorem within_shift (op : AluOp) :
    shift op i (c.within s) = (shift op i c).within s := by
  unfold shift
  dsimp only
  split <;> rfl

@[simp] theorem within_lastStage (pipe : FloatPipe) :
    lastStage (c.within s) pipe = lastStage c pipe := by
  cases pipe <;> rfl

@[simp] theorem within_advance (pipe : FloatPipe) (result : PipeSlot) :
    advance (c.within s) pipe result = (advance c pipe result).within s := by
  cases pipe <;> rfl

@[simp] theorem within_setPrecision (pipe : FloatPipe) (double : Bool) :
    setPrecision (c.within s) pipe double = (setPrecision c pipe double).within s := by
  cases pipe <;> rfl

@[simp] theorem within_issue (pipe : FloatPipe) (pipelined : Bool) (result : PipeSlot) :
    issue (c.within s) i pipe pipelined result = (issue c i pipe pipelined result).within s := by
  unfold issue
  split
  · simp
  · rfl

@[simp] theorem within_secondOperand (pipe : FloatPipe) (pipelined : Bool) :
    secondOperand (c.within s) i pipe pipelined = secondOperand c i pipe pipelined := by
  unfold secondOperand
  rw [within_lastStage]
  rfl

@[simp] theorem within_binary (op : FloatOp) (pipe : FloatPipe) (pipelined : Bool) :
    binary op pipe pipelined i (c.within s) = (binary op pipe pipelined i c).within s := by
  unfold binary
  rw [within_secondOperand, within_issue]
  rfl

@[simp] theorem within_setCompare (found : Bool) :
    setCompare i found (c.within s) = (setCompare i found c).within s := by
  have hnoted : ∀ noted : Cpu β,
      (if i.pipelined then issue (noted.within s) i .adder true (.ofBits 0#64 i.doubleSource)
        else noted.within s) =
        (if i.pipelined then issue noted i .adder true (.ofBits 0#64 i.doubleSource)
          else noted).within s := by
    intro noted
    split
    · exact within_issue noted s i .adder true _
    · rfl
  unfold setCompare
  rw [← hnoted]
  cases hdual : c.dual.isDual <;>
    simp only [show (c.within s).dual = c.dual from rfl, hdual] <;> rfl

@[simp] theorem within_compareOperands :
    compareOperands (c.within s) i = compareOperands c i := by
  unfold compareOperands
  rw [within_secondOperand]
  rfl

@[simp] theorem within_pfgt : pfgt i (c.within s) = (pfgt i c).within s := by
  simp [pfgt]

@[simp] theorem within_pfeq : pfeq i (c.within s) = (pfeq i c).within s := by
  simp [pfeq]

@[simp] theorem within_fix (truncate : Bool) :
    fix truncate i (c.within s) = (fix truncate i c).within s :=
  within_issue c s i .adder i.pipelined _

@[simp] theorem within_integerSum (subtract : Bool) :
    integerSum subtract i (c.within s) = (integerSum subtract i c).within s :=
  within_issue c s i .graphics i.pipelined _

@[simp] theorem within_mergingSum (rule : Graphics.MergeRule) :
    mergingSum rule i (c.within s) = (mergingSum rule i c).within s :=
  within_issue { c with regs := _ } s i .graphics i.pipelined _

@[simp] theorem within_faddp : faddp i (c.within s) = (faddp i c).within s :=
  within_mergingSum c s i _

@[simp] theorem within_faddz : faddz i (c.within s) = (faddz i c).within s :=
  within_mergingSum c s i _

@[simp] theorem within_form : form i (c.within s) = (form i c).within s :=
  within_issue { c with regs := _ } s i .graphics i.pipelined _

@[simp] theorem within_depthCheck (long : Bool) :
    depthCheck long i (c.within s) = (depthCheck long i c).within s :=
  within_issue (c.setPsr _) s i .graphics i.pipelined _

@[simp] theorem within_dualRetired : dualRetired (c.within s) i = dualRetired c i :=
  within_lastStage c s _

@[simp] theorem within_routed (source : RouteSource) :
    routed (c.within s) i source = routed c i source := by
  cases source with
  | src2 =>
      dsimp only [routed]
      rw [within_dualRetired]
      rfl
  | adderLast => exact congrArg PipeSlot.toDouble (within_lastStage c s .adder)
  | multiplierLast => exact congrArg PipeSlot.toDouble (within_lastStage c s (dualMultiplier i))
  | _ => rfl

@[simp] theorem within_loadRouted : loadRouted (c.within s) i = loadRouted c i := by
  unfold loadRouted
  rw [within_lastStage]
  rfl

@[simp] theorem within_dualSum : dualSum (c.within s) i = dualSum c i := by
  unfold dualSum
  rw [within_routed, within_routed]
  rfl

@[simp] theorem within_dualProduct : dualProduct (c.within s) i = dualProduct c i := by
  unfold dualProduct
  rw [within_routed, within_routed]
  rfl

theorem computes_autoIncrement (addr : VirtAddr) :
    Computes fun c : Cpu β => autoIncrement c i addr :=
  .of_frame (fun c s => within_autoIncrement c s i addr) fun c => frame_autoIncrement c i addr

theorem computes_branchIf (taken : Bool) (target : Word) :
    Computes (branchIf (β := β) taken target) where
  within c s := by unfold branchIf; split <;> rfl
  order c := by unfold branchIf; split <;> rfl
  dirbase c := by unfold branchIf; split <;> rfl

theorem computes_ldC : Computes (ldC (β := β) i) := by
  have hread : ∀ reg, (∀ (c : Cpu β) s, (c.within s).readControl reg =
      ((c.readControl reg).1, (c.readControl reg).2.within s)) ∧
      ∀ c : Cpu β, (c.readControl reg).2.order = c.order ∧
        (c.readControl reg).2.control.dirbase = c.control.dirbase := by
    intro reg
    cases reg with
    | fir =>
        refine ⟨fun c s => ?_, fun c => ?_⟩
        · cases hheld : c.faultAddrHeld <;>
            simp only [Cpu.readControl, show (c.within s).faultAddrHeld = c.faultAddrHeld from rfl,
              hheld] <;> rfl
        · dsimp only [Cpu.readControl]
          split <;> exact ⟨rfl, rfl⟩
    | _ => exact ⟨fun _ _ => rfl, fun _ => ⟨rfl, rfl⟩⟩
  cases hreg : ControlReg.ofNumber? i.src2 with
  | none =>
      have hid : ldC (β := β) i = id := by funext c; simp only [ldC, hreg]; rfl
      rw [hid]
      exact .id
  | some reg =>
      have hldC : ldC (β := β) i =
          fun c => (c.readControl reg).2.writeInt i.dest (c.readControl reg).1 := by
        funext c
        simp only [ldC, hreg]
      obtain ⟨hwithin, hkept⟩ := hread reg
      rw [hldC]
      refine ⟨fun c s => ?_, fun c => (hkept c).1, fun c => (hkept c).2⟩
      rw [hwithin]
      rfl

end Execute

end I860
