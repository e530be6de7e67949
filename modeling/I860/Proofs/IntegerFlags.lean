import I860.Proofs.BranchCommit

/-!
# Flags and exact results

The flags of a sum or difference are computed without its exact value: from
carries, from sign bits, or by comparing one operand with the other. The lemmas
here put the exact value back, once for each such test, and
`flags_of_exact_results` collects what the integer unit says about it.

One test needs care. The sign of a signed sum is found by comparing one summand
with the negation of the other, and the least word has none: negated, it is
itself (`slt_neg_eq`). With that word as the first summand the condition code of
`adds` never says that the sum is negative, although it always is, and the loop
condition of `bla` never says that its counter has run out.
-/

namespace I860

/-- Whether a signed word cannot hold an exact result. -/
def beyondSigned (n : Int) : Bool := decide (n < -2 ^ 31 ∨ 2 ^ 31 ≤ n)

section Tests

variable (x y : Word)

theorem add_eq_ofInt : x + y = BitVec.ofInt 32 (x.toInt + y.toInt) := by
  rw [BitVec.ofInt_add, BitVec.ofInt_toInt, BitVec.ofInt_toInt]

theorem add_eq_ofNat : x + y = BitVec.ofNat 32 (x.toNat + y.toNat) := by
  apply BitVec.eq_of_toNat_eq
  rw [BitVec.toNat_add, BitVec.toNat_ofNat]

theorem sub_eq_ofInt_toNat : x - y = BitVec.ofInt 32 (x.toNat - y.toNat) := by
  apply BitVec.eq_of_toNat_eq
  rw [BitVec.toNat_sub, BitVec.toNat_ofInt]
  omega

theorem sub_eq_ofInt : x - y = BitVec.ofInt 32 (x.toInt - y.toInt) := by
  apply BitVec.eq_of_toInt_eq
  rw [BitVec.toInt_sub, BitVec.toInt_ofInt]

/-- A negated word is the negative number, unless there is no such number. -/
theorem slt_neg_eq :
    y.slt (-x) = (decide (x.toInt + y.toInt < 0) && x != BitVec.intMin 32) := by
  by_cases hleast : x = BitVec.intMin 32
  · have hbound : ¬y.toInt < -2 ^ 31 := Int.not_lt.2 y.le_toInt
    rw [hleast, BitVec.neg_intMin, BitVec.slt_eq_decide, bne_self_eq_false, Bool.and_false]
    exact decide_eq_false hbound
  · have hbne : (x != BitVec.intMin 32) = true := bne_iff_ne.2 hleast
    rw [BitVec.slt_eq_decide, BitVec.toInt_neg_of_ne_intMin hleast, hbne, Bool.and_true]
    exact decide_eq_decide.2 (by omega)

/-- The loop condition compares as the condition code does, the other way round. -/
theorem loopCondition_eq : Execute.loopCondition x y = !y.slt (-x) := by
  rw [Execute.loopCondition, BitVec.sle_eq_decide, BitVec.slt_eq_decide, ← decide_not]
  exact decide_eq_decide.2 Int.not_lt.symm

/-- A sum of two numbers of the same sign that has the other one. -/
theorem signs_of_sum :
    (x.msb == y.msb && x.msb != (x + y).msb) = beyondSigned (x.toInt + y.toInt) := by
  have hflag : (x.msb == y.msb && x.msb != (x + y).msb) = x.saddOverflow y := by
    rw [BitVec.saddOverflow_eq]
    cases x.msb <;> cases y.msb <;> cases (x + y).msb <;> rfl
  rw [hflag, BitVec.saddOverflow, ← Bool.decide_or]
  exact decide_eq_decide.2 or_comm

/-- A difference of two numbers of different signs that has the sign of the second. -/
theorem signs_of_difference :
    (x.msb != y.msb && x.msb != (x - y).msb) = beyondSigned (x.toInt - y.toInt) := by
  have hflag : (x.msb != y.msb && x.msb != (x - y).msb) = x.ssubOverflow y := by
    rw [BitVec.ssubOverflow_eq]
    cases x.msb <;> cases y.msb <;> cases (x - y).msb <;> rfl
  rw [hflag, BitVec.ssubOverflow, ← Bool.decide_or]
  exact decide_eq_decide.2 or_comm

end Tests

/-- The loop condition that a completed `bla` leaves is that of its operands when it
issued, whatever its slot has done. -/
theorem lcc_of_bla {β : Type} [Bus β] {slot : Exec β Unit} {i : Instruction} {c d : Cpu β}
    (hop : i.op = .bla) (hran : execute slot i c = .ok () d) :
    d.control.psr.lcc = Execute.loopCondition (c.readInt i.src1) (c.readInt i.src2) := by
  have hdelayed : i.op.isDelayedBranch = true := by rw [hop]; rfl
  rw [execute_branch i c slot hdelayed] at hran
  cases hplanned : slotPlan? i c with
  | none =>
      unfold slotPlan? at hplanned
      rw [hop] at hplanned
      cases hplanned
  | some p =>
      rw [hplanned] at hran
      dsimp only [SlotPlan.run] at hran
      split at hran
      · cases hran
        exact p.lcc_leave (SlotPlan.counted_of_planned hplanned hop).2 _
      · cases hran

/-- What the integer unit says about exact sums and differences: the value modulo the
width of a word, whether it is negative, and whether it is out of range. The sign of
a signed sum is told truly if and only if the first summand is not the least word;
`bla` always tells it as `adds` does. -/
theorem flags_of_exact_results (x y : Word) :
    let sum := x.toInt + y.toInt
    let difference := x.toInt - y.toInt
    let carry := decide (2 ^ 32 ≤ x.toNat + y.toNat)
    let borrow := decide (x.toNat < y.toNat)
    (∃ negative,
      Alu.execute .adds x y = ⟨BitVec.ofInt 32 sum, some negative, some (beyondSigned sum)⟩ ∧
      (negative = decide (sum < 0) ↔ x ≠ BitVec.intMin 32) ∧
      ∀ {β : Type} [Bus β] {slot : Exec β Unit} {i : Instruction} {c d : Cpu β},
        i.op = .bla → c.readInt i.src1 = x → c.readInt i.src2 = y →
        execute slot i c = .ok () d →
        d.control.psr.lcc = !negative ∧
          (d.control.psr.lcc = decide (0 ≤ sum) ↔ x ≠ BitVec.intMin 32)) ∧
    Alu.execute .subs x y =
      ⟨BitVec.ofInt 32 difference, some (decide (difference < 0)),
        some (beyondSigned difference)⟩ ∧
    Alu.execute .addu x y = ⟨BitVec.ofNat 32 (x.toNat + y.toNat), some carry, some carry⟩ ∧
    Alu.execute .subu x y =
      ⟨BitVec.ofInt 32 (x.toNat - y.toNat), some (!borrow), some borrow⟩ := by
  intro sum difference carry borrow
  have hsign : y.slt (-x) = decide (sum < 0) ↔ x ≠ BitVec.intMin 32 := by
    rw [slt_neg_eq]
    by_cases hleast : x = BitVec.intMin 32
    · -- The least word and any other word have a negative sum.
      have hnegative : sum < 0 := by
        have hbound : y.toInt < 2 ^ 31 := BitVec.toInt_lt
        have hvalue : x.toInt = -2 ^ 31 := by rw [hleast]; rfl
        omega
      rw [decide_eq_true hnegative, hleast, bne_self_eq_false]
      simp
    · rw [bne_iff_ne.2 hleast, Bool.and_true]
      exact iff_of_true rfl hleast
  refine ⟨⟨y.slt (-x), ?_, hsign, fun hop hx hy hran => ?_⟩, ?_, ?_, ?_⟩
  · rw [← signs_of_sum, ← add_eq_ofInt]
    rfl
  · have hlcc := lcc_of_bla hop hran
    rw [hx, hy, loopCondition_eq] at hlcc
    have hcomplement : decide (0 ≤ sum) = !decide (sum < 0) := by
      rw [← decide_not]
      exact decide_eq_decide.2 Int.not_lt.symm
    rw [hlcc, hcomplement]
    exact ⟨rfl, Bool.not_inj_iff.trans hsign⟩
  · have hless : x.slt y = decide (difference < 0) := by
      rw [BitVec.slt_eq_decide]
      exact decide_eq_decide.2 (by omega)
    rw [← signs_of_difference, ← sub_eq_ofInt, ← hless]
    rfl
  · rw [← add_eq_ofNat]
    rfl
  · have hfits : y.ule x = !borrow := by
      rw [BitVec.ule_eq_decide, ← decide_not]
      exact decide_eq_decide.2 Nat.not_lt.symm
    have hborrow : borrow = !y.ule x := by rw [hfits, Bool.not_not]
    rw [← sub_eq_ofInt_toNat, ← hfits, hborrow]
    rfl

/-- A counter of zero, and a step of minus one. -/
def runOut : Cpu OpenMemory := ((Cpu.before 0x1000#32 []).writeInt 4 0xffffffff#32).writeInt 5 0#32

/-- The counter runs out, `bla` says so, and `adds` would have. -/
theorem flags_of_exact_results_of_run_out :
    (Alu.execute .adds 0xffffffff#32 0#32).cc = some true ∧
      ∃ d, execute (pure ()) ⟨0xb4a02008#32⟩ runOut = .ok () d ∧ d.control.psr.lcc = false := by
  obtain ⟨negative, hadds, hsign, hbla⟩ := (flags_of_exact_results 0xffffffff#32 0#32).1
  have hnegative : negative = true := hsign.2 (by decide)
  have hran : ranThrough (execute (pure ()) ⟨0xb4a02008#32⟩ runOut) = true := by decide +kernel
  have hlcc := (hbla (by decide) (by decide +kernel) (by decide +kernel)
    (eq_ok_of_ranThrough hran)).1
  rw [hnegative] at hadds hlcc
  exact ⟨congrArg AluResult.cc hadds, _, eq_ok_of_ranThrough hran, hlcc⟩

/-- The sum of the least word and zero is negative; the condition code is clear. -/
theorem least_word_hides_negative_sum :
    Alu.execute .adds (BitVec.intMin 32) 0#32 = ⟨BitVec.intMin 32, some false, some false⟩ ∧
      (BitVec.intMin 32).toInt + (0#32).toInt < 0 := by
  decide

end I860
