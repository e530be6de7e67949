import I860.Cpu.Reset
import I860.Proofs.ControlBits
import I860.Proofs.Course
import I860.Proofs.PageTables

/-!
# Control state stays coherent

Some facts about the processor are kept in two places. The byte order of data
is a bit of the extended status register and the order that accesses are made
in; the rounding mode is a field of the floating-point status and a setting of
the floating-point unit; the interrupt pin has a level and a status bit. Other
facts are fixed, such as what identifies the processor, or the registers that
are zero. `ControlCoherent` collects the former, `HoldsZeros` the latter.

Nothing that instructions compute is in `ControlCoherent`, so `Cpu.frame` has
all of it, and only the writes of control registers need a look. The zero
registers are the opposite case. They hold because every routine goes through
the few ways of writing a register, each of which leaves them alone, except for
the load of a quad, which clears what it should not have written.
-/

namespace I860

variable {β : Type}

/-! ## Facts kept in two places -/

/-- The control registers agree with what follows them, and with the parameters
that the processor was built with. -/
structure ControlCoherent (params : CpuParams) (c : Cpu β) : Prop where
  built : c.params = params
  order : c.order = .ofBigEndian c.control.epsr.be
  rounding : c.fpu.rounding = c.control.fsr.rm
  pin : c.control.epsr.int = c.irqLine
  processorType : c.control.epsr.processorType = params.processorType
  stepping : c.control.epsr.stepping = params.stepping
  dataCache : c.control.epsr.dcs = 0#4
  unnamed : c.control.epsr.other &&& Epsr.namedBits = 0#32
  noCommand : c.control.dirbase.iti = false
  directory : PageAligned c.control.dirbase.dtb

namespace ControlCoherent

variable {params : CpuParams} {c d : Cpu β}

/-- None of it is anything that instructions compute. -/
theorem of_frame (hframe : d.frame = c.frame) (h : ControlCoherent params c) :
    ControlCoherent params d := by
  have hc : ControlCoherent params c.frame :=
    ⟨h.built, h.order, h.rounding, h.pin, h.processorType, h.stepping, h.dataCache, h.unnamed,
      h.noCommand, h.directory⟩
  rw [← hframe] at hc
  exact ⟨hc.built, hc.order, hc.rounding, hc.pin, hc.processorType, hc.stepping, hc.dataCache,
    hc.unnamed, hc.noCommand, hc.directory⟩

theorem writeDirbase (h : ControlCoherent params c) (v : Word) :
    ControlCoherent params (c.writeDirbase (.ofBits v)) := by
  have haligned : PageAligned (Dirbase.ofBits v).dtb := Dirbase.pageAligned_frame v
  unfold Cpu.writeDirbase
  dsimp only
  split
  · exact { h with noCommand := rfl, directory := haligned }
  · split
    · exact { h with noCommand := rfl, directory := haligned }
    · exact { h with noCommand := rfl, directory := haligned }

theorem writeEpsr (h : ControlCoherent params c) (v : Word) :
    ControlCoherent params (c.writeEpsr v) := by
  obtain ⟨htype, hstepping, hint, hdcs⟩ :=
    c.control.epsr.write_kept v c.control.psr.u
  have horder : (c.writeEpsr v).order = .ofBigEndian (c.writeEpsr v).control.epsr.be := by
    show (if _ then _ else _) = ByteOrder.ofBigEndian (c.control.epsr.write v _).be
    split
    · rfl
    · next hsame =>
        have hbe : (c.control.epsr.write v c.control.psr.u).be = c.control.epsr.be := by
          simpa using hsame
        rw [h.order, hbe]
  exact {
    built := h.built
    order := horder
    rounding := h.rounding
    pin := hint.trans h.pin
    processorType := htype.trans h.processorType
    stepping := hstepping.trans h.stepping
    dataCache := hdcs.trans h.dataCache
    unnamed := c.control.epsr.other_write v _
    noCommand := h.noCommand
    directory := h.directory }

theorem writeControl (h : ControlCoherent params c) (reg : ControlReg) (v : Word) :
    ControlCoherent params (c.writeControl reg v) := by
  cases reg with
  | fir => exact h
  | psr => exact { h with }
  | dirbase => exact h.writeDirbase v
  | db => exact { h with }
  | fsr => exact { h with rounding := rfl }
  | epsr => exact h.writeEpsr v

theorem effect (h : ControlCoherent params c) (heffect : Effect c d) :
    ControlCoherent params d := by
  cases heffect with
  | memory mmu icache board => exact { h with }
  | compute hframe => exact h.of_frame hframe
  | jump target => exact { h with }
  | readControl reg =>
      cases reg with
      | fir =>
          dsimp only [Cpu.readControl]
          split
          · exact { h with }
          · exact h
      | _ => exact h
  | writeControl reg v => exact h.writeControl reg v

end ControlCoherent

/-! ## Registers that are zero -/

theorem IntRegs.getElem_write (r : IntRegs) (i : RegNum) (v : Word) :
    (r.write i v).words[0] = r.words[0] := by
  unfold write
  split
  · rfl
  · next hi =>
      have hne : i.val ≠ 0 := fun e => hi (Fin.ext e)
      rw [Vector.getElem_set_ne _ _ hne]

namespace FloatRegs

/-- Lanes 0 and 1 are zero. -/
def ZeroLanes (r : FloatRegs) : Prop := r.lanes[0] = 0#32 ∧ r.lanes[1] = 0#32

variable {r : FloatRegs}

theorem ZeroLanes.writeLane (h : r.ZeroLanes) (i : RegNum) (v : Word) :
    (r.writeLane i v).ZeroLanes := by
  unfold FloatRegs.writeLane
  split
  · exact h
  · next hi =>
      have hfirst : i.val ≠ 0 := by omega
      have hsecond : i.val ≠ 1 := by omega
      unfold ZeroLanes
      rw [Vector.getElem_set_ne _ _ hfirst, Vector.getElem_set_ne _ _ hsecond]
      exact h

theorem ZeroLanes.writePair (h : r.ZeroLanes) (i : RegNum) (v : Double) :
    (r.writePair i v).ZeroLanes := by
  unfold FloatRegs.writePair
  split
  · exact h
  · next hi =>
      have heven : (evenLane i).val ≠ 0 ∧ (evenLane i).val ≠ 1 := by
        simp only [evenLane]
        omega
      have hodd : (oddLane i).val ≠ 0 ∧ (oddLane i).val ≠ 1 := by
        simp only [oddLane]
        omega
      unfold ZeroLanes
      rw [Vector.getElem_set_ne _ _ hodd.1, Vector.getElem_set_ne _ _ heven.1,
        Vector.getElem_set_ne _ _ hodd.2, Vector.getElem_set_ne _ _ heven.2]
      exact h

theorem zeroLanes_loadGroup (r : FloatRegs) (i : RegNum) (words : List Word) :
    (r.loadGroup i words).ZeroLanes := by
  unfold ZeroLanes loadGroup
  rw [Vector.getElem_set_ne _ _ (by decide)]
  exact ⟨Vector.getElem_set_self _, Vector.getElem_set_self _⟩

end FloatRegs

/-- The registers that ignore what is written to them hold zero. -/
structure RegisterFile.HoldsZeros (r : RegisterFile) : Prop where
  int : r.ints.words[0] = 0#32
  lanes : r.floats.ZeroLanes

namespace RegisterFile.HoldsZeros

variable {c : Cpu β}

theorem writeInt (h : c.regs.HoldsZeros) (i : RegNum) (v : Word) :
    (c.writeInt i v).regs.HoldsZeros :=
  ⟨(c.regs.ints.getElem_write i v).trans h.int, h.lanes⟩

theorem setFloats (h : c.regs.HoldsZeros) {floats : FloatRegs} (hlanes : floats.ZeroLanes) :
    (c.setFloats floats).regs.HoldsZeros :=
  ⟨h.int, hlanes⟩

theorem writeSlot (h : c.regs.HoldsZeros) (i : RegNum) (slot : PipeSlot) :
    (c.writeSlot i slot).regs.HoldsZeros := by
  apply h.setFloats
  split
  · exact h.lanes.writePair _ _
  · exact h.lanes.writeLane _ _

theorem autoIncrement (h : c.regs.HoldsZeros) (i : Instruction) (addr : VirtAddr) :
    (Execute.autoIncrement c i addr).regs.HoldsZeros := by
  unfold Execute.autoIncrement
  split
  · exact h.writeInt _ _
  · exact h

theorem issue (h : c.regs.HoldsZeros) (i : Instruction) (pipe : FloatPipe) (pipelined : Bool)
    (result : PipeSlot) : (Execute.issue c i pipe pipelined result).regs.HoldsZeros := by
  unfold Execute.issue
  split
  · cases pipe with
    | adder => exact h.writeSlot i.dest _
    | multiplier depth => exact h.writeSlot i.dest _
    | graphics => exact h.writeSlot i.dest _
  · exact h.writeSlot i.dest _

theorem writeLoaded {r : FloatRegs} (h : r.ZeroLanes) (dest : RegNum) (width : Width)
    (v : Quad) : (Execute.writeLoaded r dest width v).ZeroLanes := by
  unfold Execute.writeLoaded
  split
  · exact FloatRegs.zeroLanes_loadGroup _ _ _
  · exact h.writePair _ _
  · exact h.writeLane _ _

theorem setCompare (h : c.regs.HoldsZeros) (i : Instruction) (found : Bool) :
    (Execute.setCompare i found c).regs.HoldsZeros := by
  have hnoted : ∀ noted : Cpu β, noted.regs = c.regs →
      (if i.pipelined then Execute.issue noted i .adder true (.ofBits 0#64 i.doubleSource)
        else noted).regs.HoldsZeros := by
    intro noted hregs
    rw [← hregs] at h
    split
    · exact h.issue _ _ _ _
    · exact h
  unfold Execute.setCompare
  apply hnoted
  split
  · rfl
  · rfl

theorem shift (h : c.regs.HoldsZeros) (op : AluOp) (i : Instruction) :
    (Execute.shift op i c).regs.HoldsZeros := by
  unfold Execute.shift
  split
  · exact h.writeInt i.dest _
  · exact h.writeInt i.dest _

theorem stC (h : c.regs.HoldsZeros) (i : Instruction) :
    (Execute.stC i c).regs.HoldsZeros := by
  unfold Execute.stC
  split
  · exact h
  · next reg _ =>
      obtain ⟨control, mmu, icache, fpu, order, heq, -, -⟩ :=
        c.writeControl_cases reg (c.readInt i.src1)
      rw [heq]
      exact h

theorem ldC (h : c.regs.HoldsZeros) (i : Instruction) :
    (Execute.ldC i c).regs.HoldsZeros := by
  unfold Execute.ldC
  split
  · exact h
  · next reg _ =>
      have hread : (c.readControl reg).2.regs.HoldsZeros := by
        cases reg with
        | fir =>
            dsimp only [Cpu.readControl]
            split
            · exact h
            · exact h
        | _ => exact h
      exact hread.writeInt i.dest _

theorem branchIf (h : c.regs.HoldsZeros) (taken : Bool) (target : Word) :
    (Execute.branchIf taken target c).regs.HoldsZeros := by
  unfold Execute.branchIf
  split
  · exact h
  · exact h

theorem undefinedFill (pattern : Word) :
    (RegisterFile.undefinedFill pattern).HoldsZeros := by
  constructor
  · simp [RegisterFile.undefinedFill, IntRegs.undefinedFill]
  · constructor
    · simp [RegisterFile.undefinedFill, FloatRegs.undefinedFill]
    · simp [RegisterFile.undefinedFill, FloatRegs.undefinedFill]

end RegisterFile.HoldsZeros

section Run

variable [Bus β] {c d : Cpu β}

theorem LookedUp.regs_eq (h : LookedUp c d) : d.regs = c.regs := by
  obtain ⟨mmu, icache, board, -, rfl⟩ := h
  rfl

omit [Bus β] in
theorem Stored.regs_eq (h : Stored c d) : d.regs = c.regs := by
  obtain ⟨mmu, icache, board, rfl⟩ := h
  rfl

/-- No instruction gets anything into a register that is to be zero. -/
theorem execute_holdsZeros (i : Instruction) (slot : Exec β Unit)
    (straight : i.op.isDelayedBranch = false) (h : c.regs.HoldsZeros) :
    Ends c (fun _ d => d.regs.HoldsZeros) (execute slot i c) := by
  have hlooked : ∀ {d : Cpu β}, LookedUp c d → d.regs.HoldsZeros := fun hd => by
    rwa [hd.regs_eq]
  have hstored : ∀ {d : Cpu β}, Stored c d → d.regs.HoldsZeros := fun hd => by
    rwa [hd.regs_eq]
  unfold execute
  cases hop : i.op <;> dsimp only
  case bri | calli | br | call | bcT | bncT | bla =>
    simp [hop, Op.isDelayedBranch] at straight
  case illegal | trap => exact .raise (by decide) (.refl c)
  case lock | unlock => exact .ok h
  case intovr => exact intovr_ends c h
  case ldInt => exact ldInt_ends i c fun _ _ hd => (hlooked hd).writeInt _ _
  case stInt => exact stInt_ends i c fun _ hd => hstored hd
  case fld =>
    refine fld_ends i c fun d v hd => .autoIncrement (.setFloats (hlooked hd) ?_) _ _
    exact RegisterFile.HoldsZeros.writeLoaded (hlooked hd).lanes _ _ _
  case pfld =>
    refine pfld_ends i c fun d v hd => .autoIncrement ?_ _ _
    exact (hlooked hd).writeSlot i.dest _
  case fst => exact fst_ends i c fun _ _ hd => (hstored hd).autoIncrement _ _
  case pstD =>
    refine pstD_ends i c fun d pm addr hd => .autoIncrement ?_ _ _
    have hkept := hstored hd
    exact hkept
  case ldC => exact .ok (h.ldC i)
  case stC => exact .ok (h.stC i)
  case bc | bnc | bte | btne => exact .ok (h.branchIf _ _)
  case dualOp =>
    refine guarded_ends c _ ?_
    have hloaded : ({ c with regs := Execute.loadRouted c i } : Cpu β).regs.HoldsZeros :=
      ⟨h.int, h.lanes⟩
    exact hloaded.writeSlot i.dest _
  case frcp | frsqr => exact reciprocal_ends i c _ fun _ => h.writeSlot _ _
  case fmul | pfmul3 | fadd | fsub => exact guarded_ends c _ (h.issue ..)
  case famov => exact guarded_ends c _ (h.issue ..)
  case fmlow => exact guarded_ends c _ (h.setFloats (h.lanes.writePair _ _))
  case ixfr => exact .ok (h.setFloats (h.lanes.writeLane _ _))
  case fxfr => exact .ok (h.writeInt _ _)
  case flush => exact .ok (h.autoIncrement _ _)
  case shl | shr | shra => exact .ok (h.shift _ _)
  case shrd => exact .ok (h.writeInt _ _)
  case pfgt | pfeq => exact .ok (h.setCompare _ _)
  case fix | ftrunc | fiadd | fisub => exact .ok (h.issue ..)
  case faddp | faddz | form =>
    refine .ok (.issue ?_ ..)
    exact ⟨h.int, h.lanes⟩
  case fzchkl | fzchks =>
    refine .ok (.issue ?_ ..)
    exact h
  -- The rest are sums and bitwise operations.
  all_goals exact .ok (h.writeInt i.dest _)

/-! ## Over a session -/

/-- The control state is coherent, and the zero registers hold zero. -/
structure Coherent (params : CpuParams) (c : Cpu β) : Prop extends
    ControlCoherent params c where
  zeros : c.regs.HoldsZeros

namespace Coherent

variable {params : CpuParams}

theorem of_lookedUp (h : Coherent params c) (hlooked : LookedUp c d) : Coherent params d :=
  ⟨h.toControlCoherent.effect hlooked.effect, hlooked.regs_eq ▸ h.zeros⟩

omit [Bus β] in
theorem faulted (h : Coherent params c) (kind : TrapKind) : Coherent params (c.faulted kind) :=
  { h with }

theorem fetch (h : Coherent params c) (pc : VirtAddr) :
    Coherent params (finalState (I860.fetch pc c)) := by
  obtain ⟨m, hlooked, heq | ⟨kind, heq⟩⟩ := fetch_looked pc c
  · rw [heq]
    exact h.of_lookedUp hlooked
  · rw [heq]
    exact (h.of_lookedUp hlooked).faulted kind

theorem interlude (h : Coherent params c) (hinterlude : Interlude c d) : Coherent params d := by
  cases hinterlude with
  | fetch pc => exact h.fetch pc
  | refuse hstraight hran =>
      obtain ⟨m, kind, hlooked, rfl⟩ := refuse_looked hstraight hran
      exact (h.of_lookedUp hlooked).faulted kind
  | link r v => exact { h with zeros := h.zeros.writeInt r v }
  | advanceDual =>
      unfold Cpu.advanceDual
      split
      · exact h
      · exact { h with }
  | _ => exact { h with }

theorem execute {slot : Exec β Unit} {i : Instruction}
    (straight : i.op.isDelayedBranch = false) (ran : I860.execute slot i c = .ok () d)
    (h : Coherent params c) : Coherent params d := by
  have heffects := (execute_ends i c slot straight).completed ran
  have hcontrol : ControlCoherent params d := by
    clear ran
    induction heffects with
    | refl => exact h.toControlCoherent
    | tail _ heffect ih => exact ih.effect heffect
  exact ⟨hcontrol, (execute_holdsZeros i slot straight h.zeros).completed ran⟩

theorem step (h : Coherent params c) : Coherent params c.step :=
  (step_course c).preserves (fun hinterlude hc => hc.interlude hinterlude)
    (fun straight ran hc => hc.execute straight ran) h

theorem host (h : Coherent params c) (haction : HostAction c d) : Coherent params d := by
  cases haction with
  | outside houtside =>
      cases houtside with
      | pin level => exact { h with pin := rfl }
      | board board => exact { h with }
  | writeControl reg v =>
      refine ⟨h.toControlCoherent.writeControl reg v, ?_⟩
      obtain ⟨control, mmu, icache, fpu, order, heq, -, -⟩ := c.writeControl_cases reg v
      rw [heq]
      exact h.zeros
  | inspectInstruction pc =>
      obtain ⟨psr, heq⟩ := c.inspectInstruction_state pc
      rw [heq]
      exact { h.fetch pc with }
  | withFloatUnit u => exact { h with rounding := rfl }

omit [Bus β] in
/-- A reset makes the control state coherent whatever it was before. -/
theorem reset (c : Cpu β) : Coherent c.params c.reset := by
  have hbuilt : c.reset.params = c.params := by
    unfold Cpu.reset
    rfl
  have hepsr : c.reset.control.epsr =
      { Epsr.ofBits 0#32 with
        processorType := c.params.processorType
        stepping := c.params.stepping
        int := c.irqLine } := rfl
  have hdirbase : c.reset.control.dirbase = Dirbase.ofBits 0#32 := rfl
  have hunnamed : (Epsr.ofBits 0#32).other &&& Epsr.namedBits = 0#32 := by decide
  exact {
    built := hbuilt
    order := by rw [hepsr]; rfl
    rounding := rfl
    pin := by rw [hepsr]; rfl
    processorType := by rw [hepsr]
    stepping := by rw [hepsr]
    dataCache := by rw [hepsr]; rfl
    unnamed := by rw [hepsr]; exact hunnamed
    noCommand := by rw [hdirbase]; rfl
    directory := by rw [hdirbase]; exact Dirbase.pageAligned_frame 0#32
    zeros := .undefinedFill c.params.undefinedPattern }

end Coherent

/-- The states that a processor built from a configuration can get into. -/
inductive Reachable (config : Config) : Cpu β → Prop
  | new {board : β} {c : Cpu β} (built : Cpu.new board config = .ok c) : Reachable config c
  | reset {c : Cpu β} (h : Reachable config c) : Reachable config c.reset
  | step {c : Cpu β} (h : Reachable config c) : Reachable config c.step
  | host {c d : Cpu β} (h : Reachable config c) (action : HostAction c d) : Reachable config d

omit [Bus β] in
theorem Cpu.eq_of_new {board : β} {config : Config} (built : Cpu.new board config = .ok c) :
    config.problem? = none ∧ c = (Cpu.powerUp board config).reset := by
  have hvalidate : ∀ valid, config.validate = .ok valid →
      config.problem? = none ∧ valid = config := by
    intro valid h
    unfold Config.validate at h
    split at h
    · cases h
    · next hnone => exact ⟨hnone, (Except.ok.inj h).symm⟩
  unfold Cpu.new at built
  cases hvalid : config.validate with
  | error e =>
      rw [hvalid] at built
      cases built
  | ok valid =>
      rw [hvalid, selfTest_eq] at built
      obtain ⟨hnone, rfl⟩ := hvalidate valid hvalid
      exact ⟨hnone, (Except.ok.inj built).symm⟩

omit [Bus β] in
/-- A configuration that can be used gives a processor. -/
theorem Cpu.new_of_validate {config : Config} (h : config.validate = .ok config) (board : β) :
    Cpu.new board config = .ok (Cpu.powerUp board config).reset := by
  unfold Cpu.new
  rw [h, selfTest_eq]
  rfl

theorem Reachable.coherent {config : Config} (h : Reachable config c) :
    Coherent (.ofConfig config) c := by
  induction h with
  | @new board _ built =>
      obtain ⟨-, rfl⟩ := Cpu.eq_of_new built
      exact Coherent.reset (Cpu.powerUp board config)
  | @reset c _ ih =>
      have hreset := Coherent.reset c
      rwa [ih.built] at hreset
  | step _ ih => exact ih.step
  | host _ haction ih => exact ih.host haction

/-- A configuration that can be used has a stepping of five bits. -/
theorem Reachable.stepping_fits {config : Config} (h : Reachable config c) :
    (config.core.stepping.setWidth 5).setWidth 8 = config.core.stepping := by
  induction h with
  | @new board c built =>
      have hnone := (Cpu.eq_of_new built).1
      unfold Config.problem? at hnone
      split at hnone
      · cases hnone
      · split at hnone
        · cases hnone
        · split at hnone
          · cases hnone
          · next hfits =>
              apply BitVec.eq_of_toNat_eq
              have hle : config.core.stepping.toNat ≤ 31 := by
                simpa [BitVec.lt_def] using hfits
              simp only [BitVec.toNat_setWidth]
              omega
  | reset _ ih => exact ih
  | step _ ih => exact ih
  | host _ _ ih => exact ih

/-- In every state that a processor gets into, whatever it executes and
whatever the host does to it between steps, what is kept in two places agrees,
what is fixed has its value, and each control register is what its word says. -/
theorem control_state_is_coherent {config : Config} {c : Cpu β} (h : Reachable config c) :
    (c.order = .big ↔ c.control.epsr.be = true) ∧
      c.fpu.rounding = c.control.fsr.rm ∧
      c.control.epsr.int = c.irqLine ∧
      (c.control.epsr.processorType = config.core.processorType ∧
        c.control.epsr.stepping.setWidth 8 = config.core.stepping ∧
        c.control.epsr.dcs = 0#4) ∧
      (c.control.dirbase.iti = false ∧ c.control.dirbase.dtb &&& 0xfff#32 = 0#32) ∧
      (c.control.psr.sc.toNat < 32 ∧ c.control.psr.ps.toNat < 4) ∧
      (c.regs.ints.words[0] = 0#32 ∧ c.regs.floats.lanes[0] = 0#32 ∧
        c.regs.floats.lanes[1] = 0#32) ∧
      (Psr.ofBits c.control.psr.bits = c.control.psr ∧
        Epsr.ofBits c.control.epsr.bits = c.control.epsr ∧
        Fsr.ofBits c.control.fsr.bits = c.control.fsr ∧
        Dirbase.ofBits c.control.dirbase.bits = c.control.dirbase) := by
  have hcoherent := h.coherent
  have horder : c.order = .big ↔ c.control.epsr.be = true := by
    rw [hcoherent.order]
    cases c.control.epsr.be <;> simp [ByteOrder.ofBigEndian]
  have hstepping : c.control.epsr.stepping.setWidth 8 = config.core.stepping := by
    rw [hcoherent.stepping]
    exact h.stepping_fits
  exact ⟨horder, hcoherent.rounding, hcoherent.pin,
    ⟨hcoherent.processorType, hstepping, hcoherent.dataCache⟩,
    ⟨hcoherent.noCommand, hcoherent.directory⟩,
    ⟨c.control.psr.sc.isLt, c.control.psr.ps.isLt⟩,
    ⟨hcoherent.zeros.int, hcoherent.zeros.lanes.1, hcoherent.zeros.lanes.2⟩,
    ⟨c.control.psr.ofBits_bits, c.control.epsr.ofBits_bits hcoherent.unnamed,
      c.control.fsr.ofBits_bits, c.control.dirbase.ofBits_bits hcoherent.directory⟩⟩

end Run

/-- The host has set the byte order and the rounding mode and raised the
interrupt pin, and a step has been made. -/
theorem control_state_is_coherent_of_big_endian :
    let built : Cpu OpenMemory := (Cpu.powerUp .blank .default).reset
    let c := (((built.writeControl .epsr 0x00800000#32).writeControl .fsr 0xc#32).setIrqLine
      true).step
    c.order = .big ∧ c.control.epsr.be = true ∧ c.fpu.rounding = c.control.fsr.rm ∧
      c.control.epsr.int = true := by
  intro built c
  have hnew : Cpu.new .blank .default = .ok built := by
    have hvalid : Config.default.validate = .ok Config.default := rfl
    unfold Cpu.new
    rw [hvalid, selfTest_eq]
    rfl
  have hreachable : Reachable .default c :=
    .step (.host (.host (.host (.new hnew) (.writeControl .epsr _)) (.writeControl .fsr _))
      (.outside (.pin true)))
  obtain ⟨horder, hrounding, hpin, -⟩ := control_state_is_coherent hreachable
  have hbig : c.order = .big := by decide +kernel
  have hline : c.irqLine = true := by decide +kernel
  exact ⟨hbig, horder.1 hbig, hrounding, hpin.trans hline⟩

end I860
