import I860.Proofs.TrapReturn

/-!
# Where a fault arises

An instruction that is run may be a delayed branch, one of the words in its
slot may be another, and somewhere inside of that an instruction fails: it
cannot be fetched, or it is refused. `ComesTo` is the way from the first of
these instructions to the last, and keeps the branches that it goes through,
outermost first. On the way out each of them takes back the register that it
has written and puts the program counter back to itself (`unwind`).

A run that comes to such a place ends there (`ComesTo.fault`), and a run that
ends with a trap has come to one (`faultsAt_of_executeOne`). It leaves what
the failing instruction leaves, unwound, and the program counter tells the
handler where that was (`fir_of_unwind`). `FaultPlace` is such a place as seen
from the step that fails there.
-/

namespace I860

variable {β : Type}

/-- A delayed branch whose slot is being run: the state in which it was noted,
and what it has decided. -/
structure PendingBranch (β : Type) where
  noted : Cpu β
  plan : SlotPlan

namespace PendingBranch

def address (branch : PendingBranch β) : VirtAddr := branch.noted.pc

/-- The state in which the slot of the branch starts. -/
def slotStart (branch : PendingBranch β) : Cpu β := (branch.plan.enter branch.noted).inSlot

/-- What the branch makes of a fault in its slot. -/
def abandon (branch : PendingBranch β) (d : Cpu β) : Cpu β :=
  branch.plan.undo branch.noted (d.backAt branch.address)

@[simp] theorem pc_abandon (branch : PendingBranch β) (d : Cpu β) :
    (branch.abandon d).pc = branch.address := by
  unfold abandon SlotPlan.undo
  split <;> rfl

@[simp] theorem control_abandon (branch : PendingBranch β) (d : Cpu β) :
    (branch.abandon d).control = d.control := by
  unfold abandon SlotPlan.undo
  split <;> rfl

end PendingBranch

/-- All branches, outermost first, have abandoned their slots. -/
def unwind (branches : List (PendingBranch β)) (d : Cpu β) : Cpu β :=
  branches.foldr PendingBranch.abandon d

theorem control_unwind (branches : List (PendingBranch β)) (d : Cpu β) :
    (unwind branches d).control = d.control := by
  induction branches with
  | nil => rfl
  | cons branch inner ih => exact (branch.control_abandon _).trans ih

/-- The trap that is seen outside of all slots. -/
def trapThrough (branches : List (PendingBranch β)) (kind : TrapKind) : Trap :=
  ⟨kind, !branches.isEmpty, false⟩

/-- The address that the trap handler is told: that of the instruction that
fails in `m`, or, if it is in a delay slot, the one behind the outermost
branch. -/
def reportedAddr (branches : List (PendingBranch β)) (m : Cpu β) : VirtAddr :=
  match branches with
  | [] => m.pc
  | outermost :: _ => outermost.address + 4#32

/-- The status bit of a class of trap. -/
def Psr.onRecord (r : Psr) : TrapKind → Bool
  | .instruction => r.it
  | .instructionAccess => r.iat
  | .dataAccess => r.dat
  | .floatingPoint => r.ft
  | .interrupt => r.inr

theorem Psr.onRecord_setTrap (r : Psr) (kind : TrapKind) :
    (r.setTrap kind).onRecord kind = true := by
  cases kind <;> rfl

variable [Bus β]

/-- The instruction at the program counter of `m` fails by itself and leaves
`d`: it cannot be fetched, or it is refused. -/
inductive Fails (m : Cpu β) (kind : TrapKind) (d : Cpu β) : Prop
  | unfetched (failed : fetch m.pc m = .error (.trap (.ofKind kind)) d)
  | refused {slot : Exec β Unit} {i : Instruction} {n : Cpu β} (fetched : Fetched m i n)
      (straight : i.op.isDelayedBranch = false)
      (failed : execute slot i n = .error (.trap (.ofKind kind)) d)

/-- The instruction at the program counter of `c` is a delayed branch that
runs its slot. -/
def Branches (c : Cpu β) (branch : PendingBranch β) : Prop :=
  ∃ i, Fetched c i branch.noted ∧ slotPlan? i branch.noted = some branch.plan

/-- Running the instruction at the program counter of `c` comes to the
instruction that is to issue in `m`, in the slots of `branches`, outermost
first. The second word of a slot is reached behind the first. -/
inductive ComesTo : (depth : Nat) → (c : Cpu β) → (branches : List (PendingBranch β)) →
    (m : Cpu β) → Prop
  | here {depth : Nat} {c : Cpu β} : ComesTo (depth + 1) c [] c
  | firstWord {depth : Nat} {c m : Cpu β} {branch : PendingBranch β}
      {inner : List (PendingBranch β)} (branches : Branches c branch)
      (rest : ComesTo depth branch.slotStart inner m) :
      ComesTo (depth + 1) c (branch :: inner) m
  | secondWord {depth : Nat} {c s m : Cpu β} {branch : PendingBranch β}
      {inner : List (PendingBranch β)} (branches : Branches c branch)
      (paired : c.flags.dual = true)
      (first : executeOne depth branch.slotStart = .ok () s)
      (rest : ComesTo depth s inner m) :
      ComesTo (depth + 1) c (branch :: inner) m

/-! ## What an instruction that fails leaves behind -/

theorem Fetched.pc_eq {c n : Cpu β} {i : Instruction} (h : Fetched c i n) : n.pc = c.pc := by
  obtain ⟨d, -, ⟨mmu, icache, board, -, rfl⟩, rfl⟩ := h
  rfl

theorem fir_of_unwind {m d : Cpu β} {kind : TrapKind} (branches : List (PendingBranch β))
    (hfails : FaultOnly kind m d) :
    ((unwind branches d).enterTrap (trapThrough branches kind)).control.fir =
      reportedAddr branches m := by
  cases branches with
  | nil =>
      obtain ⟨mmu, icache, flags, board, -, rfl⟩ := hfails
      rfl
  | cons outermost inner =>
      show (outermost.abandon (unwind inner d)).pc + 4#32 = _
      rw [PendingBranch.pc_abandon]
      rfl

theorem Fails.faultOnly {m d : Cpu β} {kind : TrapKind} (h : Fails m kind d) :
    FaultOnly kind m d := by
  cases h with
  | unfetched hfailed =>
      have hends := fetch_ends m m.pc
      rw [hfailed] at hends
      cases hends with
      | refused _ hlooked => exact .of_lookedUp hlooked
  | @refused slot i n hfetched hstraight hfailed =>
      have hends := execute_ends i n slot hstraight
      rw [hfailed] at hends
      cases hends with
      | refused _ hlooked => exact .after_fetch hfetched (.of_lookedUp hlooked)

/-! ## Runs that fault -/

theorem executeOne_of_fetched {depth : Nat} {c n : Cpu β} {i : Instruction}
    (h : Fetched c i n) :
    executeOne (depth + 1) c =
      (do execute (delaySlot (executeOne depth)) i; modify Cpu.retire : Exec β Unit) n := by
  obtain ⟨d, hfetch, -, rfl⟩ := h
  rw [executeOne, Exec.bind_apply, Exec.get_apply]
  dsimp only
  rw [Exec.bind_apply, hfetch]
  rfl

theorem executeOne_of_unfetched {depth : Nat} {c d : Cpu β} {e : Fault}
    (h : fetch c.pc c = .error e d) : executeOne (depth + 1) c = .error e d := by
  rw [executeOne, Exec.bind_apply, Exec.get_apply]
  dsimp only
  rw [Exec.bind_apply, h]

theorem fetched_or_unfetched (c : Cpu β) :
    (∃ i n, Fetched c i n) ∨
      ∃ kind d, fetch c.pc c = .error (.trap (.ofKind kind)) d := by
  have hends := fetch_ends c c.pc
  cases hfetch : fetch c.pc c with
  | ok w d =>
      rw [hfetch] at hends
      cases hends with
      | ok hlooked => exact .inl ⟨⟨w⟩, _, d, hfetch, hlooked, rfl⟩
  | error e d =>
      rw [hfetch] at hends
      cases hends with
      | refused kind _ => exact .inr ⟨kind, _, rfl⟩

theorem execute_slot_irrelevant (slot slot' : Exec β Unit) {i : Instruction} (n : Cpu β)
    (straight : i.op.isDelayedBranch = false) : execute slot i n = execute slot' i n := by
  unfold execute
  cases hop : i.op <;> first | rfl | simp [hop, Op.isDelayedBranch] at straight

/-- What a branch runs in its slot. -/
def slotBody (depth : Nat) (paired : Bool) : Exec β Unit :=
  if paired then (do executeOne depth; executeOne depth) else executeOne depth

theorem slotBody_fault {depth : Nat} {paired : Bool} {s d : Cpu β} {e : Fault}
    (h : slotBody depth paired s = .error e d) :
    executeOne depth s = .error e d ∨
      paired = true ∧ ∃ m, executeOne depth s = .ok () m ∧ executeOne depth m = .error e d := by
  unfold slotBody at h
  cases paired with
  | false => exact .inl h
  | true =>
      rw [if_pos rfl, Exec.bind_apply] at h
      split at h
      · next m hfirst => exact .inr ⟨rfl, m, hfirst, h⟩
      · next e' d' hfirst =>
          cases h
          exact .inl hfirst

theorem executeOne_of_branches {depth : Nat} {c : Cpu β} {branch : PendingBranch β}
    (h : Branches c branch) :
    executeOne (depth + 1) c =
      match slotBody depth c.flags.dual branch.slotStart with
      | .ok _ d => .ok () (branch.plan.leave (d.backAt branch.address)).retire
      | .error e d => .error e.fromSlot (branch.abandon d) := by
  obtain ⟨i, hfetched, hplanned⟩ := h
  have hbranch : i.op.isDelayedBranch = true := by
    cases hop : i.op.isDelayedBranch with
    | true => rfl
    | false =>
        rw [slotPlan?_eq_none i _ hop] at hplanned
        cases hplanned
  have hdual : (branch.plan.enter branch.noted).flags.dual = c.flags.dual :=
    hfetched.pairing_enter branch.plan
  have hpc : (branch.plan.enter branch.noted).pc = branch.address := by
    have hframe : (branch.plan.enter branch.noted).frame.pc = branch.noted.frame.pc := by
      rw [SlotPlan.frame_enter]
    exact hframe
  rw [executeOne_of_fetched hfetched, Exec.bind_apply, execute_branch i _ _ hbranch, hplanned]
  dsimp only [SlotPlan.run]
  rw [delaySlot_apply, hdual, hpc]
  unfold slotBody PendingBranch.slotStart
  cases (if c.flags.dual then (do executeOne depth; executeOne depth)
    else executeOne depth : Exec β Unit) (branch.plan.enter branch.noted).inSlot <;> rfl

theorem ComesTo.fault {depth : Nat} {c m d : Cpu β} {branches : List (PendingBranch β)}
    {kind : TrapKind} (hcomes : ComesTo depth c branches m) (hfails : Fails m kind d) :
    executeOne depth c =
      .error (.trap (trapThrough branches kind)) (unwind branches d) := by
  -- Along the way down: every branch on it abandons its slot.
  induction hcomes with
  | here =>
      cases hfails with
      | unfetched hfailed => exact executeOne_of_unfetched hfailed
      | refused hfetched hstraight hfailed =>
          rw [executeOne_of_fetched hfetched, Exec.bind_apply,
            execute_slot_irrelevant _ _ _ hstraight, hfailed]
          rfl
  | @firstWord depth c m branch inner hbranches _ ih =>
      rw [executeOne_of_branches hbranches, slotBody]
      have hfirst := ih hfails
      cases c.flags.dual with
      | false =>
          rw [if_neg Bool.false_ne_true, hfirst]
          rfl
      | true =>
          rw [if_pos rfl, Exec.bind_apply, hfirst]
          rfl
  | secondWord hbranches hpaired hfirst _ ih =>
      rw [executeOne_of_branches hbranches, slotBody, hpaired, if_pos rfl, Exec.bind_apply,
        hfirst]
      dsimp only
      rw [ih hfails]
      rfl

/-- A run has come to an instruction that fails, and has ended there. -/
def FaultsAt (depth : Nat) (c f : Cpu β) (t : Trap) : Prop :=
  ∃ branches m d, ComesTo depth c branches m ∧ Fails m t.kind d ∧
    t = trapThrough branches t.kind ∧ f = unwind branches d

theorem FaultsAt.through {depth : Nat} {c s d : Cpu β} {t : Trap} {branch : PendingBranch β}
    (h : FaultsAt depth s d t)
    (hin : ∀ {inner m}, ComesTo depth s inner m → ComesTo (depth + 1) c (branch :: inner) m) :
    FaultsAt (depth + 1) c (branch.abandon d) t.markDelaySlot := by
  obtain ⟨inner, m, d₀, hcomes, hfails, ht, rfl⟩ := h
  refine ⟨branch :: inner, m, d₀, hin hcomes, hfails, ?_, rfl⟩
  rw [ht]
  rfl

theorem faultsAt_of_executeOne {depth : Nat} {c f : Cpu β} {t : Trap}
    (h : executeOne depth c = .error (.trap t) f) : FaultsAt depth c f t := by
  induction depth generalizing c f t with
  | zero => cases h
  | succ depth ih =>
      obtain ⟨i, n, hfetched⟩ | ⟨kind, d, hfailed⟩ := fetched_or_unfetched c
      · cases hop : i.op.isDelayedBranch with
        | false =>
            rw [executeOne_of_fetched hfetched, Exec.bind_apply] at h
            have hends := execute_ends i n (delaySlot (executeOne depth)) hop
            cases hran : execute (delaySlot (executeOne depth)) i n with
            | ok _ d =>
                rw [hran] at h
                cases h
            | error e d =>
                rw [hran] at h hends
                cases hends with
                | refused kind hlooked =>
                    cases h
                    exact ⟨[], c, _, .here, .refused hfetched hop hran, rfl, rfl⟩
        | true =>
            cases hplanned : slotPlan? i n with
            | none =>
                rw [executeOne_of_fetched hfetched, Exec.bind_apply, execute_branch i n _ hop,
                  hplanned] at h
                cases h
            | some p =>
                have hbranches : Branches c ⟨n, p⟩ := ⟨i, hfetched, hplanned⟩
                rw [executeOne_of_branches hbranches] at h
                split at h
                · cases h
                · next e d hslot =>
                    cases e with
                    | endlessSlot => cases h
                    | trap t₀ =>
                        cases h
                        obtain hfirst | ⟨hpaired, s, hfirst, hsecond⟩ := slotBody_fault hslot
                        · exact (ih hfirst).through (.firstWord hbranches)
                        · exact (ih hsecond).through (.secondWord hbranches hpaired hfirst)
      · rw [executeOne_of_unfetched hfailed] at h
        cases h
        exact ⟨[], c, f, .here, .unfetched hfailed, rfl, rfl⟩

/-! ## Steps that fault -/

/-- Where the step from `b` fails, at the instruction that is to issue in `m`,
in the slots of `branches`, and what that instruction leaves. -/
structure FaultPlace (b : Cpu β) (branches : List (PendingBranch β)) (m : Cpu β)
    (kind : TrapKind) (d : Cpu β) : Prop where
  comes : ∃ c, IssuesAt b c ∧ ComesTo maxNesting c branches m
  fails : Fails m kind d

namespace FaultPlace

variable {b m d f : Cpu β} {branches : List (PendingBranch β)} {kind : TrapKind} {t : Trap}

theorem executePair_eq (h : FaultPlace b branches m kind d) :
    executePair maxNesting b.beginStep =
      .error (.trap (trapThrough branches kind)) (unwind branches d) := by
  obtain ⟨c, hissues, hcomes⟩ := h.comes
  rw [hissues.executePair_eq, executePair_apply, hcomes.fault h.fails]

theorem exists_of_fault (h : executePair maxNesting b.beginStep = .error (.trap t) f) :
    ∃ branches m d, FaultPlace b branches m t.kind d := by
  obtain ⟨c, hissues, hone⟩ := IssuesAt.exists_of_fault h
  obtain ⟨branches, m, d, hcomes, hfails, -, -⟩ := faultsAt_of_executeOne hone
  exact ⟨branches, m, d, ⟨c, hissues, hcomes⟩, hfails⟩

theorem step_eq (h : FaultPlace b branches m kind d) :
    b.step = ((unwind branches d).enterTrap (trapThrough branches kind)).countStep := by
  unfold Cpu.step
  rw [h.executePair_eq]

theorem fir_eq (h : FaultPlace b branches m kind d) :
    b.step.control.fir = reportedAddr branches m := by
  rw [h.step_eq]
  exact fir_of_unwind branches h.fails.faultOnly

theorem onRecord (h : FaultPlace b branches m kind d) :
    b.step.control.psr.onRecord kind = true := by
  have hkept : ∀ (c : Cpu β) (t : Trap),
      (c.enterTrap t).control.psr.onRecord kind = c.control.psr.onRecord kind := by
    intro c t
    cases kind <;> rfl
  have hstep : b.step.control =
      ((unwind branches d).enterTrap (trapThrough branches kind)).control := by
    rw [h.step_eq]
    rfl
  rw [hstep, hkept, control_unwind]
  obtain ⟨mmu, icache, flags, board, -, rfl⟩ := h.fails.faultOnly
  exact m.control.psr.onRecord_setTrap kind

end FaultPlace

end I860
