import I860.Proofs.BranchCommit
import I860.Proofs.Deeds
import I860.Proofs.HandlerMode
import Mathlib.Data.Nat.Find
import Mathlib.Tactic.ByContra

/-!
# How deep delay slots are nested

The slot of a delayed branch may hold another one, and nothing in a branch says
how far this goes. In single issue it goes no further than memory does: the
slot is the next word, so slots that are nested `k` deep have been fetched from
`k` words in a row behind the branch, all of which but the last are delayed
branches themselves (`delay_slots_end`).

What has to be seen is that these words are the ones that are in memory when
the first branch issues. A branch writes a link or a counter before its slot
and everything else behind it, so on the way down nothing changes but registers
and the instruction cache. Without translation a fetch has no effect on memory,
and puts into the cache what memory holds (`FetchesMemory.fetch`). So lines may
be pushed out of the cache on the way, and the distance to the next word that is
no delayed branch is that in memory all the same. The induction is on this
distance.

`executeOne` has a limit for the depth. It is never reached unless all words
that can be reached in steps of four are delayed branches: after `maxNesting` of
them the addresses repeat.
-/

namespace I860

open InstructionCache (pairAddr)

variable {β : Type}

namespace Cpu

/-- How many words have been fetched since the counts were last started again. -/
def fetches (c : Cpu β) : Nat := c.icache.hits + c.icache.misses

/-- An address a number of words behind the program counter. -/
def addressAhead (c : Cpu β) (k : Nat) : VirtAddr := c.pc + 4#32 * BitVec.ofNat 32 k

@[simp] theorem addressAhead_zero (c : Cpu β) : c.addressAhead 0 = c.pc := by
  simp [addressAhead]

variable [Bus β]

/-- The instruction that memory holds at an address. -/
def memoryWord (c : Cpu β) (a : VirtAddr) : Instruction :=
  ⟨wordOfPair a (pairAt c.board (pairAddr a))⟩

/-- The instruction that memory holds a number of words behind the program
counter. -/
def wordAhead (c : Cpu β) (k : Nat) : Instruction := c.memoryWord (c.addressAhead k)

end Cpu

variable [Bus β]

/-! ## Fetching what memory holds -/

/-- Addresses are not translated, and the lines of the instruction cache are as
good as memory. -/
structure FetchesMemory (c : Cpu β) : Prop where
  untranslated : c.control.dirbase.ate = false
  agrees : ∀ tag pair, c.icache.Keeps tag pair → pairAt c.board tag = pair

namespace FetchesMemory

variable {c d : Cpu β}

theorem of_frame (h : FetchesMemory c) (hframe : d.frame = c.frame) : FetchesMemory d where
  untranslated := (congrArg (·.control.dirbase.ate) hframe).trans h.untranslated
  agrees tag pair hkeeps := by
    have hboard : d.board = c.board := congrArg (·.board) hframe
    have hicache : d.icache = c.icache := congrArg (·.icache) hframe
    rw [hboard]
    exact h.agrees tag pair (hicache ▸ hkeeps)

/-- A fetch finds the word in memory, and leaves everything as it was but for
what the cache holds. -/
theorem fetch (h : FetchesMemory c) (a : VirtAddr) :
    ∃ icache, fetch a c = .ok (c.memoryWord a).raw { c with icache := icache } ∧
      icache.hits + icache.misses = c.fetches + 1 ∧
      FetchesMemory { c with icache := icache } := by
  cases hpeek : c.icache.peek a with
  | some pair =>
      have hpair := h.agrees _ _ ((InstructionCache.peek_eq_some_iff ..).1 hpeek)
      refine ⟨{ c.icache with hits := c.icache.hits + 1 }, ?_, Nat.add_right_comm ..,
        ⟨h.untranslated, h.agrees⟩⟩
      rw [fetch_of_hit hpeek, Cpu.memoryWord, hpair]
  | none =>
      have hplace : c.mmu.translate c.order c.board c.control.dirbase (pairAddr a) .fetch
          c.privilege = (.ok (pairAddr a), c.mmu, c.board) := by
        rw [Mmu.translate, h.untranslated]
        rfl
      refine ⟨c.missed.icache.fill a (pairAt c.board (pairAddr a)), ?_, rfl,
        ⟨h.untranslated, fun tag pair hkeeps => ?_⟩⟩
      · rw [fetch_of_miss hpeek, hplace]
        rfl
      · obtain ⟨rfl, rfl⟩ | hkept := InstructionCache.keeps_of_fill hkeeps
        · rfl
        · exact h.agrees tag pair hkept

theorem fetched (h : FetchesMemory c) :
    ∃ n, Fetched c (c.wordAhead 0) n ∧ n.board = c.board ∧ n.fetches = c.fetches + 1 ∧
      FetchesMemory n := by
  obtain ⟨icache, hfetch, hcount, hmemory⟩ := h.fetch c.pc
  rw [Cpu.wordAhead, Cpu.addressAhead_zero]
  exact ⟨_, fetched_of_fetch hfetch, rfl, hcount, ⟨hmemory.untranslated, hmemory.agrees⟩⟩

/-- The host may look at instructions. -/
theorem inspectInstruction (h : FetchesMemory c) (a : VirtAddr) :
    FetchesMemory (c.inspectInstruction a).2 := by
  obtain ⟨icache, hfetch, -, hmemory⟩ := h.fetch a
  obtain ⟨psr, hinspected⟩ := c.inspectInstruction_state a
  rw [hinspected, hfetch]
  exact ⟨hmemory.untranslated, hmemory.agrees⟩

end FetchesMemory

/-! ## Counting fetches -/

theorem untouched_fetches : Untouched (Cpu.fetches (β := β)) where
  compute h c :=
    congrArg (fun s : Surroundings β => s.icache.hits + s.icache.misses) (h.surroundings_eq c)
  translate vaddr access c := by
    rw [translate_apply]
    obtain ⟨result, mmu, board⟩ :=
      c.mmu.translate c.order c.board c.control.dirbase vaddr access c.privilege
    cases result <;> rfl
  board _ _ := rfl
  control c reg v := by
    cases reg with
    | dirbase =>
        dsimp only [Cpu.writeControl, Cpu.writeDirbase]
        split
        · rfl
        · split <;> rfl
    | _ => rfl

omit [Bus β] in
theorem SlotPlan.fetches_leave (p : SlotPlan) (d : Cpu β) : (p.leave d).fetches = d.fetches := by
  obtain ⟨written, target, returns, loop⟩ := p
  cases returns <;> cases loop <;> rfl

omit [Bus β] in
theorem PendingBranch.fetches_abandon (branch : PendingBranch β) (d : Cpu β) :
    (branch.abandon d).fetches = d.fetches := by
  unfold abandon SlotPlan.undo
  split <;> rfl

/-! ## Depth -/

section SingleSlot

variable {c d : Cpu β} {branch : PendingBranch β} {depth : Nat}

theorem Branches.ok_of_slot (h : Branches c branch) (single : c.flags.dual = false)
    (ran : executeOne depth branch.slotStart = .ok () d) :
    executeOne (depth + 1) c = .ok () (branch.plan.leave (d.backAt branch.address)).retire := by
  rw [executeOne_of_branches h, slotBody, single, if_neg Bool.false_ne_true, ran]

theorem Branches.error_of_slot {e : Fault} (h : Branches c branch)
    (single : c.flags.dual = false) (ran : executeOne depth branch.slotStart = .error e d) :
    executeOne (depth + 1) c = .error e.fromSlot (branch.abandon d) := by
  rw [executeOne_of_branches h, slotBody, single, if_neg Bool.false_ne_true, ran]

end SingleSlot

/-- Running the instruction at the program counter nests slots to a depth of
`m`, no less and no more, and fetches a word for each of the branches and one
for the innermost slot: those at the addresses that follow each other. -/
structure Nests (c : Cpu β) (m : Nat) : Prop where
  endless : ∀ depth ≤ m, ∃ d, executeOne depth c = .error .endlessSlot d
  ends : ∃ r, (∀ depth > m, executeOne depth c = r) ∧ (∀ d, r ≠ .error .endlessSlot d) ∧
    (finalState r).fetches = c.fetches + (m + 1)
  words : ∀ depth > m, wordsOfOne depth c =
    (List.range (m + 1)).map fun j => (c.addressAhead j, c.wordAhead j)

namespace Nests

variable {c n : Cpu β}

/-- An instruction that runs no slot. -/
theorem here (fetched : Fetched c (c.wordAhead 0) n)
    (unplanned : slotPlan? (c.wordAhead 0) n = none) (counted : n.fetches = c.fetches + 1) : Nests c 0 where
  endless depth hdepth := by
    obtain rfl := Nat.le_zero.1 hdepth
    exact ⟨c, rfl⟩
  ends := by
    cases hop : (c.wordAhead 0).op.isDelayedBranch with
    | true =>
        refine ⟨.ok () (n.jump n.afterSlot).retire, fun depth hdepth => ?_, fun d hd => ?_,
          counted⟩
        · obtain ⟨depth, rfl⟩ := Nat.exists_eq_add_of_lt hdepth
          rw [Nat.zero_add, executeOne_of_fetched fetched, Exec.bind_apply,
            execute_branch _ n _ hop, unplanned]
          rfl
        · cases hd
    | false =>
        refine ⟨executeOne 1 c, fun depth hdepth => ?_, fun d hd => ?_, ?_⟩
        · obtain ⟨depth, rfl⟩ := Nat.exists_eq_add_of_lt hdepth
          rw [Nat.zero_add, executeOne_of_fetched fetched, executeOne_of_fetched fetched,
            Exec.bind_apply, Exec.bind_apply, execute_slot_irrelevant _ _ n hop]
        · have hends := execute_ends (c.wordAhead 0) n (delaySlot (executeOne 0)) hop
          rw [executeOne_of_fetched fetched, Exec.bind_apply] at hd
          generalize execute (delaySlot (executeOne 0)) (c.wordAhead 0) n = r at hends hd
          cases hends <;> cases hd
        · have hkept := untouched_fetches.execute (delaySlot (executeOne 0)) hop n
          rw [executeOne_of_fetched fetched, Exec.bind_apply, ← counted, ← hkept]
          cases execute (delaySlot (executeOne 0)) (c.wordAhead 0) n <;> rfl
  words depth hdepth := by
    obtain ⟨depth, rfl⟩ := Nat.exists_eq_add_of_lt hdepth
    rw [Nat.zero_add, wordsOfOne_of_fetched fetched, unplanned]
    exact congrArg (fun a => [(a, c.wordAhead 0)]) c.addressAhead_zero.symm

/-- A branch that runs its slot. -/
theorem nested (branch : PendingBranch β) {m : Nat}
    (fetched : Fetched c (c.wordAhead 0) branch.noted)
    (planned : slotPlan? (c.wordAhead 0) branch.noted = some branch.plan)
    (single : c.flags.dual = false) (counted : branch.slotStart.fetches = c.fetches + 1)
    (ahead : ∀ j, branch.slotStart.addressAhead j = c.addressAhead (j + 1) ∧
      branch.slotStart.wordAhead j = c.wordAhead (j + 1))
    (inner : Nests branch.slotStart m) : Nests c (m + 1) := by
  have hbranches : Branches c branch := ⟨_, fetched, planned⟩
  exact {
    endless := fun depth hdepth => by
      cases depth with
      | zero => exact ⟨c, rfl⟩
      | succ depth =>
          obtain ⟨d, hd⟩ := inner.endless depth (Nat.le_of_succ_le_succ hdepth)
          exact ⟨_, hbranches.error_of_slot single hd⟩
    ends := by
      obtain ⟨r, hran, hends, hcount⟩ := inner.ends
      have hinner : ∀ depth > m + 1, ∃ depth', depth = depth' + 1 ∧
          executeOne depth' branch.slotStart = r := by
        intro depth hdepth
        obtain ⟨depth', rfl⟩ := Nat.exists_eq_add_of_lt hdepth
        exact ⟨_, rfl, hran _ (by omega)⟩
      have htotal : (finalState r).fetches = c.fetches + (m + 1 + 1) := by
        rw [hcount, counted]
        omega
      cases r with
      | ok a d =>
          refine ⟨.ok () (branch.plan.leave (d.backAt branch.address)).retire,
            fun depth hdepth => ?_, fun e he => ?_, (branch.plan.fetches_leave _).trans htotal⟩
          · obtain ⟨depth, rfl, hslot⟩ := hinner depth hdepth
            exact hbranches.ok_of_slot single hslot
          · cases he
      | error e d =>
          refine ⟨.error e.fromSlot (branch.abandon d), fun depth hdepth => ?_, fun f hf => ?_,
            (branch.fetches_abandon d).trans htotal⟩
          · obtain ⟨depth, rfl, hslot⟩ := hinner depth hdepth
            exact hbranches.error_of_slot single hslot
          · cases e with
            | trap t => cases hf
            | endlessSlot => exact hends d rfl
    words := fun depth hdepth => by
      have hsingle : branch.slotStart.flags.dual = false :=
        (fetched.pairing_enter branch.plan).trans single
      obtain ⟨depth, rfl⟩ := Nat.exists_eq_add_of_lt hdepth
      have hinner := inner.words (m + 1 + depth) (by omega)
      rw [wordsOfOne_of_fetched fetched, planned]
      dsimp only
      have hwords : wordsOfSlot (wordsOfOne (m + 1 + depth)) (executeOne (m + 1 + depth))
          branch.slotStart = wordsOfOne (m + 1 + depth) branch.slotStart := by
        rw [wordsOfSlot, hsingle, if_neg Bool.false_ne_true, List.append_nil]
      have hstart : (branch.plan.enter branch.noted).inSlot = branch.slotStart := rfl
      rw [hstart, hwords, hinner, List.range_succ_eq_map (n := m + 1), List.map_cons,
        List.map_map, Cpu.addressAhead_zero]
      refine congrArg (_ :: ·) (List.map_congr_left fun j _ => ?_)
      rw [(ahead j).1, (ahead j).2]
      rfl }

end Nests

/-! ## The distance to the next word that is no delayed branch -/

section Distance

variable {c : Cpu β}

omit [Bus β] in
theorem Cpu.addressAhead_inSlot {d : Cpu β} (h : d.pc = c.pc + 4#32) (j : Nat) :
    d.addressAhead j = c.addressAhead (j + 1) := by
  rw [addressAhead, addressAhead, h, BitVec.ofNat_add, BitVec.mul_add, BitVec.mul_one,
    BitVec.add_assoc, BitVec.add_comm 4#32]

/-- Behind `maxNesting` words the addresses repeat. -/
theorem Cpu.wordAhead_mod (c : Cpu β) (k : Nat) : c.wordAhead (k % maxNesting) = c.wordAhead k := by
  have haddress : c.addressAhead (k % maxNesting) = c.addressAhead k := by
    have hmul : 4#32 * BitVec.ofNat 32 (k % maxNesting) = 4#32 * BitVec.ofNat 32 k := by
      apply BitVec.eq_of_toNat_eq
      simp only [BitVec.toNat_mul, BitVec.toNat_ofNat, maxNesting]
      omega
    rw [addressAhead, hmul, ← addressAhead]
  rw [wordAhead, haddress, ← wordAhead]

theorem nests_of_distance {k : Nat} (single : c.flags.dual = false) (memory : FetchesMemory c)
    (delayed : ∀ j < k, (c.wordAhead j).op.isDelayedBranch = true)
    (straight : (c.wordAhead k).op.isDelayedBranch = false) : ∃ m ≤ k, Nests c m := by
  induction k generalizing c with
  | zero =>
      obtain ⟨n, hfetched, -, hcount, -⟩ := memory.fetched
      exact ⟨0, Nat.le_refl 0, .here hfetched (slotPlan?_eq_none _ n straight) hcount⟩
  | succ k ih =>
      obtain ⟨n, hfetched, hboard, hcount, hmemory⟩ := memory.fetched
      cases hplanned : slotPlan? (c.wordAhead 0) n with
      | none => exact ⟨0, Nat.zero_le _, .here hfetched hplanned hcount⟩
      | some p =>
          -- Up to the slot nothing has changed but registers and the cache.
          have hframe := p.frame_enter n
          have hpc : (p.enter n).inSlot.pc = c.pc + 4#32 := by
            have hnoted : (p.enter n).pc = n.pc := congrArg (·.pc) hframe
            rw [Cpu.inSlot, hnoted, hfetched.pc_eq]
          have hsame : (p.enter n).inSlot.board = c.board :=
            (congrArg (·.board) hframe : (p.enter n).board = n.board).trans hboard
          have hfetches : (p.enter n).inSlot.fetches = c.fetches + 1 := by
            have hicache : (p.enter n).icache = n.icache := congrArg (·.icache) hframe
            rw [← hcount, Cpu.fetches, Cpu.fetches, ← hicache]
            rfl
          have hentered := hmemory.of_frame hframe
          have hahead : ∀ j, (p.enter n).inSlot.addressAhead j = c.addressAhead (j + 1) ∧
              (p.enter n).inSlot.wordAhead j = c.wordAhead (j + 1) := by
            intro j
            have haddress := Cpu.addressAhead_inSlot hpc j
            refine ⟨haddress, ?_⟩
            rw [Cpu.wordAhead, Cpu.wordAhead, haddress, Cpu.memoryWord, Cpu.memoryWord, hsame]
          obtain ⟨m, hm, hnests⟩ := ih (c := (p.enter n).inSlot)
            ((hfetched.pairing_enter p).trans single)
            ⟨hentered.untranslated, hentered.agrees⟩
            (fun j hj => (hahead j).2 ▸ delayed (j + 1) (Nat.succ_lt_succ hj))
            ((hahead k).2 ▸ straight)
          exact ⟨m + 1, Nat.succ_le_succ hm,
            .nested ⟨n, p⟩ hfetched hplanned single hfetches hahead hnests⟩

/-- In single issue and without translation, with a cache that agrees with
memory, running an instruction ends. If the first `k` words from the program
counter on are delayed branches and the next is none, slots are nested at most
`k` deep and at most `k + 1` words are fetched. The limit of the depth is met
only if all words that are reached in steps of four are delayed branches. -/
theorem delay_slots_end (single : c.flags.dual = false) (memory : FetchesMemory c) :
    (∀ k, (∀ j < k, (c.wordAhead j).op.isDelayedBranch = true) →
      (c.wordAhead k).op.isDelayedBranch = false → k < maxNesting ∧ ∃ m ≤ k, Nests c m) ∧
    ((∃ d, executeOne maxNesting c = .error .endlessSlot d) →
      ∀ j, (c.wordAhead j).op.isDelayedBranch = true) := by
  have hdistance : ∀ k, (∀ j < k, (c.wordAhead j).op.isDelayedBranch = true) →
      (c.wordAhead k).op.isDelayedBranch = false → k < maxNesting ∧ ∃ m ≤ k, Nests c m := by
    intro k hdelayed hstraight
    refine ⟨?_, nests_of_distance single memory hdelayed hstraight⟩
    by_contra hfar
    have hearlier : k % maxNesting < k :=
      Nat.lt_of_lt_of_le (Nat.mod_lt k (by decide : 0 < maxNesting)) (Nat.le_of_not_lt hfar)
    have hbranch := hdelayed _ hearlier
    rw [c.wordAhead_mod, hstraight] at hbranch
    cases hbranch
  refine ⟨hdistance, fun ⟨d, hendless⟩ => ?_⟩
  by_contra hsome
  have hexists : ∃ j, (c.wordAhead j).op.isDelayedBranch = false := by simpa using hsome
  obtain ⟨hnear, m, hm, hnests⟩ := hdistance (Nat.find hexists)
    (fun j hj => by simpa using Nat.find_min hexists hj) (Nat.find_spec hexists)
  obtain ⟨r, hran, hends, -⟩ := hnests.ends
  exact hends d ((hran maxNesting (by omega)).symm.trans hendless)

end Distance

/-- The nested call, after the host has looked at its first word, so that the
cache holds the branch and the call. -/
def inspectedCall : Cpu OpenMemory := (nestedCall.inspectInstruction 0x1000#32).2

/-- The branch at `0x1000` has the call in its slot, and the call an instruction
that is no branch. -/
theorem delay_slots_end_of_nested_call :
    (inspectedCall.icache.peek 0x1000#32).isSome = true ∧
      (∀ j < 2, (inspectedCall.wordAhead j).op.isDelayedBranch = true) ∧
      (inspectedCall.wordAhead 2).op.isDelayedBranch = false ∧
      2 < maxNesting ∧ ∃ m ≤ 2, Nests inspectedCall m := by
  have hmemory : FetchesMemory nestedCall := by
    refine ⟨by decide +kernel, fun tag pair hkeeps => ?_⟩
    have hlines : nestedCall.icache.lines = Sparse.empty := by rfl
    rw [InstructionCache.Keeps, hlines, Sparse.get?_empty] at hkeeps
    cases hkeeps
  have hdelayed : ∀ j < 2, (inspectedCall.wordAhead j).op.isDelayedBranch = true := by
    decide +kernel
  have hstraight : (inspectedCall.wordAhead 2).op.isDelayedBranch = false := by decide +kernel
  exact ⟨by decide +kernel, hdelayed, hstraight,
    (delay_slots_end (by decide +kernel) (hmemory.inspectInstruction 0x1000#32)).1 2 hdelayed
      hstraight⟩

end I860
