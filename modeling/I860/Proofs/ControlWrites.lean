import I860.Proofs.Coherence
import I860.Proofs.Lookups

/-!
# What a write of a control register changes

A control register is written through one of three masking schemes. The write
of a status register merges the value with the old word and then unpacks it,
that of the directory base drops a command, and that of the fault address is
ignored. Whatever the scheme, the word of the register afterwards is the old
word with some bits replaced by those of the value, and `ControlReg.writable`
says which.

The register is kept field by field, so the law has two parts. Unpacking a word
and packing it again leaves exactly the bits that have a field (`bits_ofBits`).
And the bits without a field are clear in any packed word (`bits_and_absent`),
so that a mask may count them as kept or as written, as it likes.
-/

namespace I860

section Words

variable {k w : Nat} {old v kept absent : Word}

/-- A flag that was taken from a word, put back in its place. -/
theorem flagBit_getLsbD (v : Word) (n : Nat) :
    flagBit (v.getLsbD n) n = v &&& (1#32 <<< n) := by
  apply BitVec.eq_of_getLsbD_eq
  intro i hi
  rw [BitVec.getLsbD_eq_getElem hi, getElem_flagBit _ _ _ hi, BitVec.getLsbD_and,
    BitVec.getLsbD_shiftLeft]
  by_cases hin : i = n
  · simp [hin, hin ▸ hi]
  · have hbit : i < n ∨ i - n ≠ 0 := by omega
    rcases hbit with hlow | hhigh
    · simp [hin, hlow]
    · simp [hin, hhigh]

/-- A field that was taken from a word, put back in its place. -/
theorem extractLsb'_replaced (v : Word) (k w : Nat) :
    (v.extractLsb' k w).setWidth 32 <<< k = v &&& ((BitVec.allOnes w).setWidth 32 <<< k) := by
  apply BitVec.eq_of_getLsbD_eq
  intro i hi
  rw [BitVec.getLsbD_shiftLeft, BitVec.getLsbD_setWidth, BitVec.getLsbD_extractLsb',
    BitVec.getLsbD_and, BitVec.getLsbD_shiftLeft, BitVec.getLsbD_setWidth,
    BitVec.getLsbD_allOnes]
  by_cases hlow : i < k
  · simp [hlow]
  · have hplace : k + (i - k) = i := by omega
    rw [hplace]
    cases v.getLsbD i <;> simp

/-- The same for the field that begins a word, which is not shifted. -/
theorem extractLsb'_replaced_first (v : Word) (w : Nat) :
    (v.extractLsb' 0 w).setWidth 32 = v &&& (BitVec.allOnes w).setWidth 32 := by
  have hfield := extractLsb'_replaced v 0 w
  rwa [BitVec.shiftLeft_zero, BitVec.shiftLeft_zero] at hfield

/-- Old and new bits merged, and the absent ones cleared. Where they were clear
before, it makes no difference whether they count as kept or not. -/
theorem merge_and_not (old v kept : Word) (h : old &&& absent = 0#32) :
    ((v &&& ~~~kept) ||| (old &&& kept)) &&& ~~~absent =
      (old &&& ~~~(~~~kept &&& ~~~absent)) ||| (v &&& (~~~kept &&& ~~~absent)) := by
  apply BitVec.eq_of_getLsbD_eq
  intro i hi
  have hbit : old.getLsbD i = false ∨ absent.getLsbD i = false := by
    have hclear := congrArg (BitVec.getLsbD · i) h
    simpa only [BitVec.getLsbD_and, BitVec.getLsbD_zero, Bool.and_eq_false_iff] using hclear
  simp only [BitVec.getLsbD_and, BitVec.getLsbD_or, BitVec.getLsbD_not, hi, decide_true,
    Bool.true_and]
  rcases hbit with hold | habsent
  · rw [hold]
    cases v.getLsbD i <;> cases kept.getLsbD i <;> cases absent.getLsbD i <;> rfl
  · rw [habsent]
    cases v.getLsbD i <;> cases kept.getLsbD i <;> cases old.getLsbD i <;> rfl

end Words

/-! ## The bits that have a field -/

/-- The bits of the processor status that have no field. -/
def Psr.absent : Word := 0x00010000#32

/-- The bits of the floating-point status that have no field. -/
def Fsr.absent : Word := 0x86000000#32

theorem Psr.bits_ofBits (v : Word) : (ofBits v).bits = v &&& ~~~absent := by
  simp only [ofBits, bits, flagBit_getLsbD, extractLsb'_replaced, ← BitVec.and_or_distrib_left]
  rfl

theorem RoundingMode.field_ofField (field : BitVec 2) : (ofField field).field = field := by
  revert field
  decide

theorem Fsr.bits_ofBits (v : Word) : (ofBits v).bits = v &&& ~~~absent := by
  simp only [ofBits, bits, RoundingMode.field_ofField, flagBit_getLsbD, extractLsb'_replaced,
    ← BitVec.and_or_distrib_left]
  rfl

theorem Epsr.bits_ofBits (v : Word) : (ofBits v).bits = v := by
  have hnamed : v &&& ~~~namedBits &&& ~~~namedBits = v &&& ~~~namedBits := by
    rw [BitVec.and_assoc, BitVec.and_self]
  simp only [ofBits, bits, hnamed, flagBit_getLsbD, extractLsb'_replaced,
    extractLsb'_replaced_first, ← BitVec.and_or_distrib_left]
  exact BitVec.and_allOnes

theorem Psr.bits_and_absent (r : Psr) : r.bits &&& absent = 0#32 := by
  have hword := bits_ofBits r.bits
  rw [ofBits_bits] at hword
  rw [hword, BitVec.and_assoc, BitVec.not_and_self]
  exact BitVec.and_zero

theorem Fsr.bits_and_absent (r : Fsr) : r.bits &&& absent = 0#32 := by
  have hword := bits_ofBits r.bits
  rw [ofBits_bits] at hword
  rw [hword, BitVec.and_assoc, BitVec.not_and_self]
  exact BitVec.and_zero

theorem Dirbase.bits_and_command (r : Dirbase) (haligned : PageAligned r.dtb)
    (hcommand : r.iti = false) : r.bits &&& 0x20#32 = 0#32 := by
  have hbit : r.bits.getLsbD 5 = r.iti := congrArg Dirbase.iti (r.ofBits_bits haligned)
  have hflag : r.bits &&& (1#32 <<< 5) = flagBit r.iti 5 := by
    rw [← hbit, flagBit_getLsbD]
  rwa [hcommand] at hflag

/-- What is stored of a word for the directory base. -/
theorem Dirbase.bits_stored (v : Word) :
    ({ ofBits v with iti := false } : Dirbase).bits = v &&& ~~~0x20#32 := by
  have hframe : v &&& frameBits &&& frameBits = v &&& frameBits := by
    rw [BitVec.and_assoc, BitVec.and_self]
  have hclear : flagBit false 5 = v &&& 0#32 := BitVec.and_zero.symm
  simp only [ofBits, bits, hframe, hclear, flagBit_getLsbD, extractLsb'_replaced,
    ← BitVec.and_or_distrib_left]
  rfl

/-! ## The law -/

/-- The bits that a write changes, made from user mode or not. -/
def ControlReg.writable (user : Bool) : ControlReg → Word
  | .fir => 0#32
  | .psr => ~~~(if user then 0xf0#32 else 0#32) &&& ~~~0x00010000#32
  | .dirbase => ~~~0x20#32
  | .db => BitVec.allOnes 32
  | .fsr => 0x003e01ef#32
  | .epsr => ~~~0x003e1fff#32 &&& ~~~(if user then 0x00c04000#32 else 0#32)

theorem Psr.bits_write (r : Psr) (v : Word) (user : Bool) :
    (r.write v user).bits =
      (r.bits &&& ~~~ControlReg.writable user .psr) ||| (v &&& ControlReg.writable user .psr) := by
  have hmerged := merge_and_not r.bits v (if user then supervisorOnly else 0#32)
    r.bits_and_absent
  cases user with
  | true => exact (bits_ofBits _).trans hmerged
  | false =>
      have hkept : (v &&& ~~~0#32) ||| (r.bits &&& 0#32) = v := by
        rw [BitVec.and_zero, BitVec.or_zero]
        exact BitVec.and_allOnes
      simp only [Bool.false_eq_true, if_false] at hmerged
      rw [hkept] at hmerged
      exact (bits_ofBits v).trans hmerged

theorem Fsr.bits_write (r : Fsr) (v : Word) :
    (r.write v).bits =
      (r.bits &&& ~~~0x003e01ef#32) ||| (v &&& 0x003e01ef#32) := by
  have hmerged := merge_and_not r.bits v (~~~writable) r.bits_and_absent
  have hmask : writable &&& ~~~absent = 0x003e01ef#32 := by decide
  rw [BitVec.not_not, hmask] at hmerged
  exact (bits_ofBits _).trans hmerged

theorem Epsr.bits_write (r : Epsr) (v : Word) (user : Bool) :
    (r.write v user).bits =
      (r.bits &&& ~~~ControlReg.writable user .epsr) |||
        (v &&& ControlReg.writable user .epsr) := by
  have hmask : ControlReg.writable user .epsr = ~~~keptBits user := by
    cases user with
    | true => decide
    | false => decide
  rw [hmask, BitVec.not_not, BitVec.or_comm]
  exact bits_ofBits _

section Write

variable {β : Type} {params : CpuParams} {c : Cpu β}

/-- The command is carried out and not kept. -/
theorem Cpu.dirbase_writeControl (c : Cpu β) (v : Word) :
    (c.writeControl .dirbase v).control.dirbase = { Dirbase.ofBits v with iti := false } := by
  unfold writeControl writeDirbase
  dsimp only
  split
  · rfl
  · split <;> rfl

theorem ControlCoherent.raw_writeControl (h : ControlCoherent params c) (reg : ControlReg)
    (v : Word) :
    (c.writeControl reg v).control.raw reg =
      (c.control.raw reg &&& ~~~reg.writable c.control.psr.u) |||
        (v &&& reg.writable c.control.psr.u) := by
  cases reg with
  | fir =>
      show c.control.fir = (c.control.fir &&& ~~~0#32) ||| (v &&& 0#32)
      rw [BitVec.and_zero, BitVec.or_zero]
      exact BitVec.and_allOnes.symm
  | psr => exact c.control.psr.bits_write v _
  | dirbase =>
      have hclear := c.control.dirbase.bits_and_command h.directory h.noCommand
      show (c.writeControl .dirbase v).control.dirbase.bits =
        (c.control.dirbase.bits &&& ~~~~~~0x20#32) ||| (v &&& ~~~0x20#32)
      rw [c.dirbase_writeControl, Dirbase.bits_stored, BitVec.not_not, hclear, BitVec.zero_or]
  | db =>
      show v = (c.control.db &&& ~~~BitVec.allOnes 32) ||| (v &&& BitVec.allOnes 32)
      rw [BitVec.not_allOnes, BitVec.and_zero, BitVec.zero_or, BitVec.and_allOnes]
  | fsr => exact c.control.fsr.bits_write v
  | epsr => exact c.control.epsr.bits_write v _

theorem Cpu.raw_writeControl_of_ne (c : Cpu β) {reg other : ControlReg} (hne : other ≠ reg)
    (v : Word) : (c.writeControl reg v).control.raw other = c.control.raw other := by
  cases reg with
  | fir => rfl
  | dirbase =>
      have hkept : ∃ dirbase, (c.writeDirbase (.ofBits v)).control =
          { c.control with dirbase := dirbase } := by
        unfold Cpu.writeDirbase
        dsimp only
        split
        · exact ⟨_, rfl⟩
        · split
          · exact ⟨_, rfl⟩
          · exact ⟨_, rfl⟩
      obtain ⟨dirbase, hcontrol⟩ := hkept
      show (c.writeDirbase (.ofBits v)).control.raw other = _
      rw [hcontrol]
      cases other with
      | dirbase => exact absurd rfl hne
      | _ => rfl
  | psr | db | fsr | epsr =>
      cases other with
      | fir | psr | dirbase | db | fsr | epsr => first | rfl | exact absurd rfl hne

/-- What a write does to the lookaside buffer and the instruction cache. -/
theorem Cpu.buffers_writeControl (c : Cpu β) (reg : ControlReg) (v : Word) :
    let d := c.writeControl reg v
    let commanded := reg = .dirbase ∧ v.getLsbD 5 = true
    let retargeted := d.control.dirbase.ate ≠ c.control.dirbase.ate ∨
      d.control.dirbase.dtb ≠ c.control.dirbase.dtb
    (commanded → d.mmu = c.mmu.flush) ∧ (¬commanded → d.mmu = c.mmu) ∧
      (commanded ∨ retargeted → d.icache = c.icache.invalidate) ∧
      (¬(commanded ∨ retargeted) → d.icache = c.icache) := by
  cases reg with
  | dirbase =>
      have hiti : (Dirbase.ofBits v).iti = v.getLsbD 5 := rfl
      dsimp only [writeControl, writeDirbase]
      rw [hiti]
      split
      · next hcommand =>
          have hcommanded : ControlReg.dirbase = .dirbase ∧ v.getLsbD 5 = true := ⟨rfl, hcommand⟩
          exact ⟨fun _ => rfl, absurd hcommanded, fun _ => rfl, fun h => absurd (.inl hcommanded) h⟩
      · next hcommand =>
          split
          · next hchanged =>
              simp only [Bool.or_eq_true, bne_iff_ne] at hchanged
              exact ⟨fun h => absurd h.2 hcommand, fun _ => rfl, fun _ => rfl,
                fun h => absurd (.inr hchanged) h⟩
          · next hsame =>
              simp only [Bool.or_eq_true, bne_iff_ne] at hsame
              refine ⟨fun h => absurd h.2 hcommand, fun _ => rfl, fun h => ?_, fun _ => rfl⟩
              exact absurd h (not_or.2 ⟨fun h => hcommand h.2, hsame⟩)
  | fir | psr | db | fsr | epsr =>
      simp [writeControl, writeFsr, writeEpsr, setPsr, setFsr, setEpsr]

end Write

section Law

variable {β : Type} [Bus β]

/-- A write of a control register replaces the writable bits of that register
and no bit of another one, and a read then gives the word that this makes. The
lookaside buffer is emptied by the command in the directory base and by nothing
else, the instruction cache by the command and by a change of what is
translated. -/
theorem control_write_law {config : Config} {c : Cpu β} (h : Reachable config c)
    (reg : ControlReg) (v : Word) :
    let d := c.writeControl reg v
    let w := reg.writable c.control.psr.u
    let commanded := reg = .dirbase ∧ v.getLsbD 5 = true
    let retargeted := d.control.dirbase.ate ≠ c.control.dirbase.ate ∨
      d.control.dirbase.dtb ≠ c.control.dirbase.dtb
    d.control.raw reg = (c.control.raw reg &&& ~~~w) ||| (v &&& w) ∧
      (reg ≠ .fir → (d.readControl reg).1 = d.control.raw reg) ∧
      (∀ other, other ≠ reg → d.control.raw other = c.control.raw other) ∧
      (commanded → d.mmu = c.mmu.flush ∧ ∀ page t, ¬d.mmu.tlb.Keeps page t) ∧
      (¬commanded → d.mmu = c.mmu) ∧
      (commanded ∨ retargeted →
        d.icache = c.icache.invalidate ∧ ∀ tag pair, ¬d.icache.Keeps tag pair) ∧
      (¬(commanded ∨ retargeted) → d.icache = c.icache) := by
  intro d w commanded retargeted
  obtain ⟨hflush, hkeep, hinvalidate, hkeepLines⟩ := c.buffers_writeControl reg v
  have hread : reg ≠ .fir → (d.readControl reg).1 = d.control.raw reg := by
    intro hne
    cases reg with
    | fir => exact absurd rfl hne
    | psr | dirbase | db | fsr | epsr => rfl
  refine ⟨h.coherent.raw_writeControl reg v, hread,
    fun other hne => c.raw_writeControl_of_ne hne v, fun hcommand => ?_, hkeep,
    fun hempties => ?_, hkeepLines⟩
  · have hmmu : d.mmu = c.mmu.flush := hflush hcommand
    refine ⟨hmmu, fun page t => ?_⟩
    rw [hmmu]
    exact c.mmu.tlb.not_keeps_flush page t
  · have hicache : d.icache = c.icache.invalidate := hinvalidate hempties
    refine ⟨hicache, fun tag pair => ?_⟩
    rw [hicache]
    exact c.icache.not_keeps_invalidate tag pair

end Law

/-- The extended status register of a big-endian processor, written with zeros
by a supervisor and by a user: the byte order is the supervisor's to change. -/
theorem control_write_law_of_both_modes :
    let built : Cpu OpenMemory := (Cpu.powerUp .blank .default).reset
    let big := built.writeControl .epsr 0xffffffff#32
    let user := big.writeControl .psr 0x40#32
    big.control.raw .epsr = 0xffc1e301#32 ∧
      (big.writeControl .epsr 0#32).control.raw .epsr = 0x00000301#32 ∧
      (user.writeControl .epsr 0#32).control.raw .epsr = 0x00c04301#32 ∧
      (user.writeControl .dirbase 0xffffffff#32).control.raw .dirbase = 0xffffffdf#32 ∧
      ∀ page t, ¬(user.writeControl .dirbase 0xffffffff#32).mmu.tlb.Keeps page t := by
  intro built big user
  have hbuilt : Reachable .default built := .new (Cpu.new_of_validate rfl OpenMemory.blank)
  have hbig : Reachable .default big := .host hbuilt (.writeControl .epsr _)
  have huser : Reachable .default user := .host hbig (.writeControl .psr _)
  have hset : big.control.raw .epsr = 0xffc1e301#32 :=
    (control_write_law hbuilt .epsr 0xffffffff#32).1.trans (by decide +kernel)
  refine ⟨hset, ?_, ?_, ?_, ?_⟩
  · exact (control_write_law hbig .epsr 0#32).1.trans (by decide +kernel)
  · exact (control_write_law huser .epsr 0#32).1.trans (by decide +kernel)
  · exact (control_write_law huser .dirbase 0xffffffff#32).1.trans (by decide +kernel)
  · obtain ⟨-, -, -, hflushed, -⟩ := control_write_law huser .dirbase 0xffffffff#32
    exact (hflushed (by decide)).2

end I860
