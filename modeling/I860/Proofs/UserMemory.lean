import I860.Proofs.Isolation

/-!
# User memory

A run of steps from user mode, with paging on and tables that user mode cannot
write, reads nothing but what the tables open to user mode, and writes nothing
but what they let user mode write. It may not enter a trap handler, which is the
supervisor's code, and with PU clear it may not return from one either.

A program can break the rest by itself. The directory base can be written from
user mode, and a write that turns paging off takes the tables out of force
(`user_leaves_paging`). So the statement is about the instructions up to the
first of this kind, and a list of them is gone through with the condition
collected on the way (`HoldsWhile`).
-/

namespace I860

variable {β : Type} [Bus β]

/-! ## Runs -/

/-- Each element of a list is good for which all before it keep something. -/
def HoldsWhile {α : Type} (keep good : α → Prop) : List α → Prop
  | [] => True
  | x :: rest => good x ∧ (keep x → HoldsWhile keep good rest)

namespace HoldsWhile

variable {α : Type} {keep good : α → Prop} {x : α} {pre post : List α}

theorem append (hpre : HoldsWhile keep good pre)
    (hpost : (∀ y ∈ pre, keep y) → HoldsWhile keep good post) :
    HoldsWhile keep good (pre ++ post) := by
  induction pre with
  | nil => exact hpost fun y hy => absurd hy List.not_mem_nil
  | cons y rest ih =>
      exact ⟨hpre.1, fun hkeep => ih (hpre.2 hkeep) fun hrest =>
        hpost (List.forall_mem_cons.2 ⟨hkeep, hrest⟩)⟩

theorem good_of_prefix (h : HoldsWhile keep good (pre ++ x :: post)) (hpre : ∀ y ∈ pre, keep y) :
    good x := by
  induction pre with
  | nil => exact h.1
  | cons y rest ih =>
      obtain ⟨hkeep, hrest⟩ := List.forall_mem_cons.1 hpre
      exact ih (h.2 hkeep) hrest

end HoldsWhile

/-- What a number of steps executes. -/
def executedBySteps : Nat → Cpu β → List (Executed β)
  | 0, _ => []
  | n + 1, c => executedByStep c ++ executedBySteps n c.step

section Runs

variable [PlainMemory β] {start c d : Cpu β} {log : List (Executed β)}

/-- While the tables are kept, instructions are confined and the run stays
isolated. -/
def StaysIsolated (start : Cpu β) (log : List (Executed β)) (d : Cpu β) : Prop :=
  HoldsWhile Executed.KeepsTables (Executed.Confined start) log ∧
    ((∀ x ∈ log, x.KeepsTables) → Isolated start d)

theorem Completed.staysIsolated (h : Completed c log d) (hstart : Sandboxed start)
    (hc : Isolated start c)
    (hstays : start.control.psr.pu = true ∨ d.flags.dualRestored = false) :
    StaysIsolated start log d := by
  induction h with
  | stop c => exact ⟨trivial, fun _ => hc⟩
  | @passing c d e log hfirst hrest ih =>
      refine ih (hc.passing hstart hfirst (hstays.imp_right fun hnone => ?_)) hstays
      -- Had this been a return from a handler, the note of it would still be there.
      cases hreturned : d.flags.dualRestored with
      | false => rfl
      | true => exact (hrest.dualRestored hreturned).symm.trans hnone
  | executed hstraight hran _ ih =>
      have hnext := fun hkeeps => ih (hc.execute hstart hstraight hran hkeeps) hstays
      exact ⟨⟨hc.confined hstart, fun hkeeps => (hnext hkeeps).1⟩, fun hall =>
        (hnext (hall _ List.mem_cons_self)).2 fun y hy => hall y (List.mem_cons_of_mem _ hy)⟩

theorem Isolated.step (hc : Isolated start c) (hstart : Sandboxed start)
    (hstay : c.entersTrap = false)
    (hpu : start.control.psr.pu = true ∨ c.leavesTrap = false) :
    StaysIsolated start (executedByStep c) c.step := by
  have hbegun : Isolated start c.beginStep := { hc with }
  unfold executedByStep
  obtain ⟨d, hran, hstep⟩ | ⟨⟨d, hran⟩, hstep⟩ := Cpu.step_of_stays hstay
  · rw [hran, hstep]
    have hstays : start.control.psr.pu = true ∨ d.flags.dualRestored = false := by
      rwa [Cpu.leavesTrap, hran] at hpu
    obtain ⟨hlog, hend⟩ :=
      (executePair_completed maxNesting c.beginStep d hran).staysIsolated hstart hbegun hstays
    refine ⟨hlog, fun hall => ?_⟩
    have hd := hend hall
    unfold Cpu.advanceDual
    split <;> exact { hd with }
  · rw [hran, hstep]
    exact ⟨trivial, fun _ => hc⟩

theorem Isolated.steps (n : Nat) (hc : Isolated start c) (hstart : Sandboxed start)
    (hstay : ∀ k < n, (Cpu.steps k c).entersTrap = false)
    (hpu : start.control.psr.pu = true ∨ ∀ k < n, (Cpu.steps k c).leavesTrap = false) :
    StaysIsolated start (executedBySteps n c) (Cpu.steps n c) := by
  induction n generalizing c with
  | zero => exact ⟨trivial, fun _ => hc⟩
  | succ n ih =>
      have hfirst := hc.step hstart (hstay 0 (Nat.succ_pos n))
        (hpu.imp_right fun hnone => hnone 0 (Nat.succ_pos n))
      -- The rest of the run is under the tables if the first step has kept them.
      have hrest := fun hkept => ih (hfirst.2 hkept)
        (fun k hk => hstay (k + 1) (Nat.succ_lt_succ hk))
        (hpu.imp_right fun hnone k hk => hnone (k + 1) (Nat.succ_lt_succ hk))
      refine ⟨hfirst.1.append fun hkept => (hrest hkept).1, fun hall => ?_⟩
      obtain ⟨hkept, hlater⟩ := List.forall_mem_append.1 hall
      exact (hrest hkept).2 hlater

/-- From user mode, with paging on, an empty lookaside buffer and tables that
user mode cannot write, a run without traps reads bytes in frames that are open
to user mode, and writes bytes in dirty ones that user mode may write. This holds
of each instruction before which the tables were kept. If they were kept all
along, the run ends in user mode, and words outside of the frames that user mode
may write have got accessed bits at most. -/
theorem user_memory_isolated {config : Config} (hreach : Reachable config c)
    (huser : c.control.psr.u = true) (hpaged : c.control.dirbase.ate = true)
    (hstrict : c.params.trapMisaligned = true) (hflushed : ∀ page t, ¬c.mmu.tlb.Keeps page t)
    (htables : c.ProtectsTables) (n : Nat)
    (hstay : ∀ k < n, (Cpu.steps k c).entersTrap = false)
    (hpu : c.control.psr.pu = true ∨ ∀ k < n, (Cpu.steps k c).leavesTrap = false) :
    (∀ pre x post, executedBySteps n c = pre ++ x :: post → (∀ y ∈ pre, y.KeepsTables) →
        x.Confined c) ∧
      ((∀ x ∈ executedBySteps n c, x.KeepsTables) →
        (Cpu.steps n c).control.psr.u = true ∧
          KeptOutside c.order (c.Maps PagePath.writableByUser) c.board
            (Cpu.steps n c).board) := by
  have hsandboxed : Sandboxed c := ⟨hreach.coherent.directory, hstrict, htables⟩
  have hstart : Isolated c c :=
    ⟨⟨rfl, hpaged, rfl, .refl c.board, .of_flushed hflushed⟩, ⟨huser, rfl⟩, rfl⟩
  obtain ⟨hlog, hend⟩ := hstart.steps n hsandboxed hstay hpu
  refine ⟨fun pre x post hsplit hpre => ?_, fun hkept => ?_⟩
  · rw [hsplit] at hlog
    exact hlog.good_of_prefix hpre
  · have hisolated := hend hkept
    exact ⟨hisolated.user.1, hisolated.memory⟩

end Runs

/-! ## Two programs

The tables at `0x1000` let user mode run code at `0x3000`, and write to the page
at `0x5000`, which lies at `0x6000`. A program loads a word from `0x5000` and
stores it behind that. The two programs differ in the instruction before the
load. -/

namespace OpenMemory

/-- Blank memory with words stored in it. -/
def ofWords (words : List (PhysAddr × Word)) : OpenMemory :=
  words.foldr (fun entry board => Bus.storeWord .little board entry.1 entry.2) .blank

theorem loadWord_blank (a : PhysAddr) : Bus.loadWord .little blank a = 0#32 := by
  apply Word.eq_of_bytes
  intro k hk
  rw [byteOf_loadWord .little blank a hk]
  have hzero : ∀ k < 4, byteOf ((0#32).setWidth 128) k = 0#8 := by decide
  rw [hzero k hk]
  exact readByte_blank _

variable {words : List (PhysAddr × Word)}

/-- A word that is not zero is one of those that were stored. -/
theorem loadWord_ofWords (haligned : ∀ entry ∈ words, WordAligned entry.1) {a : PhysAddr}
    (ha : WordAligned a) :
    Bus.loadWord .little (ofWords words) a = 0#32 ∨
      (a, Bus.loadWord .little (ofWords words) a) ∈ words := by
  induction words with
  | nil => exact .inl (loadWord_blank a)
  | cons entry rest ih =>
      obtain ⟨hentry, hrest⟩ := List.forall_mem_cons.1 haligned
      rw [ofWords, List.foldr_cons, loadWord_storeWord .little _ hentry ha]
      split
      · next hhere =>
          subst hhere
          exact .inr List.mem_cons_self
      · exact (ih hrest).imp_right (List.mem_cons_of_mem _)

/-- The words that make up a page. -/
def entriesAt (words : List (PhysAddr × Word)) (frame : Word) : List PageEntry :=
  (words.filter fun entry => entry.1 &&& pageFrameMask == frame).map fun entry => ⟨entry.2⟩

theorem mem_entriesAt (haligned : ∀ entry ∈ words, WordAligned entry.1) {a : PhysAddr}
    (ha : WordAligned a)
    (hpresent : (⟨Bus.loadWord .little (ofWords words) a⟩ : PageEntry).present = true) :
    (⟨Bus.loadWord .little (ofWords words) a⟩ : PageEntry) ∈
      entriesAt words (a &&& pageFrameMask) := by
  obtain hzero | hstored := loadWord_ofWords haligned ha
  · rw [hzero] at hpresent
    cases hpresent
  · exact List.mem_map.2 ⟨_, List.mem_filter.2 ⟨hstored, beq_self_eq_true _⟩, rfl⟩

end OpenMemory

/-- The tables, the program and what it finds. -/
def userWords (second : Word) : List (PhysAddr × Word) :=
  [(0x1000#32, 0x2007#32), (0x200c#32, 0x3005#32), (0x2014#32, 0x6067#32),
    (0x3000#32, 0xe4055000#32), (0x3004#32, second), (0x3008#32, 0x14a60001#32),
    (0x300c#32, 0x1ca03005#32), (0x5000#32, 0x5ec2e7#32), (0x6000#32, 0x600d#32)]

def userConfig : Config :=
  { Config.default with general := { Config.default.general with startPc := 0x3000#32 } }

/-- The processor before the supervisor has set it up. -/
def userBooted (second : Word) : Cpu OpenMemory :=
  (Cpu.powerUp (OpenMemory.ofWords (userWords second)) userConfig).reset

/-- A processor that is about to run the program in user mode. -/
def userProgram (second : Word) : Cpu OpenMemory :=
  ((userBooted second).writeControl .dirbase 0x1021#32).writeControl .psr 0x40#32

section Programs

variable (second : Word)

theorem userProgram_reachable : Reachable userConfig (userProgram second) := by
  have hvalid : userConfig.validate = .ok userConfig := rfl
  have hbuilt : Reachable userConfig (userBooted second) :=
    .new (Cpu.new_of_validate hvalid _)
  have hpaged := hbuilt.host (.writeControl .dirbase 0x1021#32)
  exact hpaged.host (.writeControl .psr 0x40#32)

theorem userProgram_flushed (page : Word) (t : PageMapping) :
    ¬(userProgram second).mmu.tlb.Keeps page t := by
  have hflushed := ((userBooted second).buffers_writeControl .dirbase 0x1021#32).1 ⟨rfl, rfl⟩
  have hmmu : (userProgram second).mmu = (userBooted second).mmu.flush := hflushed
  rw [hmmu]
  exact Tlb.not_keeps_flush _ page t

theorem userProgram_dirbase :
    (userProgram second).control.dirbase.ate = true ∧
      (userProgram second).control.dirbase.dtb = 0x1000#32 := by
  have hstored := (userBooted second).dirbase_writeControl 0x1021#32
  have hdirbase : (userProgram second).control.dirbase =
      { Dirbase.ofBits 0x1021#32 with iti := false } := hstored
  rw [hdirbase]
  exact ⟨rfl, rfl⟩

theorem userProgram_pathOf (vaddr : VirtAddr) :
    (userProgram second).pathOf vaddr =
      PagePath.of .little (OpenMemory.ofWords (userWords second)) 0x1000#32 vaddr := by
  rw [Cpu.pathOf, (userProgram_dirbase second).2]
  rfl

theorem userProgram_entries {vaddr : VirtAddr} {p : PagePath}
    (hp : (userProgram second).pathOf vaddr = p) :
    (p.directory.present = true → p.directory = ⟨0x2007#32⟩) ∧
      (p.openToUser = true → p.table = ⟨0x3005#32⟩ ∨ p.table = ⟨0x6067#32⟩) := by
  have haligned : ∀ entry ∈ userWords second, WordAligned entry.1 := by
    simp [userWords, WordAligned]
  have hdirectories : OpenMemory.entriesAt (userWords second) 0x1000#32 = [⟨0x2007#32⟩] := by
    simp [OpenMemory.entriesAt, userWords, pageFrameMask]
  have htables : OpenMemory.entriesAt (userWords second) 0x2000#32 =
      [⟨0x3005#32⟩, ⟨0x6067#32⟩] := by
    simp [OpenMemory.entriesAt, userWords, pageFrameMask]
  have hdtb : PageAligned 0x1000#32 := rfl
  let board := OpenMemory.ofWords (userWords second)
  rw [userProgram_pathOf] at hp
  have hdirectory : p.directory.present = true → p.directory = ⟨0x2007#32⟩ := by
    intro hpresent
    subst hp
    have hentry := OpenMemory.mem_entriesAt haligned
      (PagePath.directoryAddr_aligned .little board _ vaddr hdtb) hpresent
    rw [PagePath.directoryAddr_and_pageFrameMask _ _ _ _ hdtb, hdirectories] at hentry
    exact List.mem_singleton.1 hentry
  refine ⟨hdirectory, fun hopen => ?_⟩
  simp only [PagePath.openToUser, Bool.and_eq_true] at hopen
  have hframe : p.directory.frame = 0x2000#32 := by
    rw [hdirectory hopen.1.1]
    rfl
  subst hp
  have hentry := OpenMemory.mem_entriesAt haligned
    (PagePath.tableAddr_aligned .little board _ vaddr) hopen.2.1
  rw [PagePath.tableAddr_and_pageFrameMask, hframe, htables] at hentry
  exact (List.mem_cons.1 hentry).imp_right List.mem_singleton.1

theorem userProgram_maps {frame : Word}
    (h : (userProgram second).Maps PagePath.openToUser frame) :
    frame = 0x3000#32 ∨ frame = 0x6000#32 := by
  obtain ⟨vaddr, hopen, rfl⟩ := h
  refine ((userProgram_entries second rfl).2 hopen).imp (fun htable => ?_) fun htable => ?_
  · rw [htable]
    rfl
  · rw [htable]
    rfl

theorem userProgram_mapsWritable {frame : Word}
    (h : (userProgram second).Maps PagePath.writableByUser frame) : frame = 0x6000#32 := by
  obtain ⟨vaddr, hwritable, rfl⟩ := h
  simp only [PagePath.writableByUser, Bool.and_eq_true] at hwritable
  obtain htable | htable := (userProgram_entries second rfl).2 hwritable.1
  · rw [htable] at hwritable
    exact absurd hwritable.2.2 (by decide)
  · rw [htable]
    rfl

theorem userProgram_protectsTables : (userProgram second).ProtectsTables := by
  have hdtb := (userProgram_dirbase second).2
  refine ⟨fun hwritten => ?_, fun vaddr hpresent hwritten => ?_⟩
  · rw [hdtb] at hwritten
    exact absurd (userProgram_mapsWritable second hwritten) (by decide)
  · rw [← Cpu.pathOf] at hpresent hwritten
    have hframe := userProgram_mapsWritable second hwritten
    rw [(userProgram_entries second rfl).1 hpresent] at hframe
    exact absurd hframe (by decide)

end Programs

/-- Whether an instruction has accessed the operand at `vaddr` at the place `paddr`. -/
def Executed.operandAt (x : Executed OpenMemory) (vaddr : VirtAddr) (access : AccessKind)
    (paddr : PhysAddr) : Bool :=
  x.word.access? x.before == some (vaddr, .word, access) &&
    (answerOf (checkData vaddr .word access x.before)).toOption == some paddr

theorem Executed.accesses_of_operandAt {x : Executed OpenMemory} {vaddr : VirtAddr}
    {access : AccessKind} {paddr : PhysAddr} (h : x.operandAt vaddr access paddr = true) :
    x.Accesses access paddr := by
  simp only [operandAt, Bool.and_eq_true, beq_iff_eq] at h
  obtain ⟨haccess, hchecked⟩ := h
  cases hrun : checkData vaddr .word access x.before with
  | ok found d =>
      rw [hrun] at hchecked
      obtain rfl : found = paddr := Option.some.inj hchecked
      exact ⟨vaddr, .word, found, d, haccess, hrun, 0, by decide, (BitVec.add_zero found).symm⟩
  | error fault d =>
      rw [hrun] at hchecked
      cases hchecked

/-- With an instruction that does nothing before the load, the run reads and
writes the page that it may write, at the place where the tables put it. -/
theorem user_memory_isolated_of_program :
    let c := userProgram 0xa0000000#32
    (∃ x ∈ executedBySteps 2 c, x.Accesses .read 0x6000#32) ∧
      (∃ x ∈ executedBySteps 2 c, x.Accesses .write 0x6004#32) ∧
      c.Maps PagePath.openToUser 0x6000#32 ∧ c.Maps PagePath.takesUserStores 0x6000#32 ∧
      (Cpu.steps 2 c).control.psr.u = true := by
  intro c
  have huser : c.control.psr.u = true := by decide +kernel
  have hstrict : c.params.trapMisaligned = true := by decide +kernel
  have hstay : ∀ k < 2, (Cpu.steps k c).entersTrap = false := by decide +kernel
  have hleaves : ∀ k < 2, (Cpu.steps k c).leavesTrap = false := by decide +kernel
  have hkept : ∀ x ∈ executedBySteps 2 c, x.KeepsTables := by decide +kernel
  have hreach : Reachable userConfig c := userProgram_reachable _
  have hpaged : c.control.dirbase.ate = true := (userProgram_dirbase _).1
  have hflushed : ∀ page t, ¬c.mmu.tlb.Keeps page t := userProgram_flushed _
  have htables : c.ProtectsTables := userProgram_protectsTables _
  obtain ⟨hconfined, hend⟩ := user_memory_isolated hreach huser hpaged hstrict hflushed htables 2
    hstay (.inr hleaves)
  have hall : ∀ x ∈ executedBySteps 2 c, x.Confined c := by
    intro x hmem
    obtain ⟨pre, post, hsplit⟩ := List.append_of_mem hmem
    refine hconfined pre x post hsplit fun y hy => hkept y ?_
    rw [hsplit]
    exact List.mem_append_left _ hy
  have hread : (executedBySteps 2 c).any (·.operandAt 0x5000#32 .read 0x6000#32) = true := by
    decide +kernel
  have hwrite : (executedBySteps 2 c).any (·.operandAt 0x5004#32 .write 0x6004#32) = true := by
    decide +kernel
  obtain ⟨x, hx, hreads⟩ := List.any_eq_true.1 hread
  obtain ⟨y, hy, hwrites⟩ := List.any_eq_true.1 hwrite
  have hloaded := Executed.accesses_of_operandAt hreads
  have hstored := Executed.accesses_of_operandAt hwrites
  have hopen := (hall x hx).1 _ hloaded
  have htakes := (hall y hy).2 _ hstored
  have hframe : 0x6000#32 &&& pageFrameMask = 0x6000#32 := by decide
  have hframe' : 0x6004#32 &&& pageFrameMask = 0x6000#32 := by decide
  rw [hframe] at hopen
  rw [hframe'] at htakes
  exact ⟨⟨x, hx, hloaded⟩, ⟨y, hy, hstored⟩, hopen, htakes, (hend hkept).1⟩

/-- The directory base written with zero, and the load reads what no table maps. -/
theorem user_leaves_paging :
    let c := userProgram 0x38400000#32
    (Reachable userConfig c ∧ c.control.psr.u = true ∧ c.control.dirbase.ate = true ∧
        c.params.trapMisaligned = true ∧ (∀ page t, ¬c.mmu.tlb.Keeps page t) ∧
        c.ProtectsTables) ∧
      (∀ k < 2, (Cpu.steps k c).entersTrap = false ∧ (Cpu.steps k c).leavesTrap = false) ∧
      ∃ x ∈ executedBySteps 2 c, x.Accesses .read 0x5000#32 ∧
        ¬c.Maps PagePath.openToUser (0x5000#32 &&& pageFrameMask) := by
  intro c
  have hread : (executedBySteps 2 c).any (·.operandAt 0x5000#32 .read 0x5000#32) = true := by
    decide +kernel
  obtain ⟨x, hmem, hx⟩ := List.any_eq_true.1 hread
  refine ⟨⟨userProgram_reachable _, by decide +kernel, (userProgram_dirbase _).1,
    by decide +kernel, userProgram_flushed _, userProgram_protectsTables _⟩, by decide +kernel,
    x, hmem, Executed.accesses_of_operandAt hx, fun hmaps => ?_⟩
  exact absurd (userProgram_maps _ hmaps) (by decide)

end I860
