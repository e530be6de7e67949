import I860.Proofs.Coherence

/-!
# The graphics unit

Two registers of the graphics unit take things in at the top and push what they
have down, MERGE by some bits for every sum and PM by one bit for every field of
a depth check. What such a register holds after any number of steps is the same
argument for both (`shifted_in`): the last input has the top, the one before it
has what is below that, and the old contents have the rest.

Masks and results are put together field by field. Of all the fields one at most
reaches a given bit, and that is how bits are looked up in them
(`getLsbD_foldl_or`, `any_range_of_one`).

The instructions of the unit have in common where their operands come from and
where their results go, whatever the precision bits of the word say.
-/

namespace I860

/-! ## Shift registers -/

section Shifting

variable {α σ : Type}

/-- What a register holds at distance `t` from where things come in, `taken` places
at a time. The last input is the first one of `recent`, and `start` has what was
held before all of them. -/
def shiftedIn (taken : Nat) (incoming : α → Nat → Bool) (start : Nat → Bool) (recent : List α)
    (t : Nat) : Bool :=
  match recent[t / taken]? with
  | some a => incoming a (t % taken)
  | none => start (t - taken * recent.length)

/-- A register of which every step moves what it holds away from where things come
in, and fills the places there. -/
theorem shifted_in {take : σ → α → σ} (bit : σ → Nat → Bool) {incoming : α → Nat → Bool}
    {taken width : Nat} (hpos : 0 < taken)
    (hstep : ∀ s a t, t < width →
      bit (take s a) t = if t < taken then incoming a t else bit s (t - taken))
    (s : σ) (inputs : List α) {t : Nat} (ht : t < width) :
    bit (inputs.foldl take s) t = shiftedIn taken incoming (bit s) inputs.reverse t := by
  rw [List.foldl_eq_foldr_reverse]
  generalize inputs.reverse = recent
  -- The last input has the places nearest by, and those before it share the rest.
  induction recent generalizing t with
  | nil => simp [shiftedIn]
  | cons a recent ih =>
      rw [List.foldr_cons, hstep _ _ _ ht]
      split
      · next hnear =>
          have hfirst : t / taken = 0 := Nat.div_eq_of_lt hnear
          simp [shiftedIn, hfirst, Nat.mod_eq_of_lt hnear]
      · next hfar =>
          have hle : taken ≤ t := by omega
          have hdiv : t / taken = (t - taken) / taken + 1 := Nat.div_eq_sub_div hpos hle
          have hmod : t % taken = (t - taken) % taken := Nat.mod_eq_sub_mod hle
          have hrest : t - taken * (recent.length + 1) =
              t - taken - taken * recent.length := by
            rw [Nat.mul_succ]
            omega
          rw [ih (by omega)]
          simp only [shiftedIn, hdiv, List.getElem?_cons_succ, hmod, List.length_cons, hrest]

end Shifting

/-! ## Masks -/

theorem getLsbD_foldl_or {n : Nat} (f : Nat → BitVec n) (acc : BitVec n) (l : List Nat)
    (b : Nat) :
    (l.foldl (fun acc i => acc ||| f i) acc).getLsbD b =
      (acc.getLsbD b || l.any fun i => (f i).getLsbD b) := by
  induction l generalizing acc with
  | nil => simp
  | cons i l ih => rw [List.foldl_cons, ih, BitVec.getLsbD_or, List.any_cons, Bool.or_assoc]

/-- Of the members of a range, one at most has a bit. -/
theorem any_range_of_one {n : Nat} (k : Nat) {p : Nat → Bool}
    (hother : ∀ i < n, i ≠ k → p i = false) :
    (List.range n).any p = (decide (k < n) && p k) := by
  rw [Bool.eq_iff_iff, List.any_eq_true, Bool.and_eq_true, decide_eq_true_eq]
  constructor
  · rintro ⟨i, hi, hset⟩
    have hi : i < n := List.mem_range.1 hi
    have hik : i = k := by
      by_cases hne : i = k
      · exact hne
      · rw [hother i hi hne] at hset
        cases hset
    exact hik ▸ ⟨hi, hset⟩
  · rintro ⟨hk, hset⟩
    exact ⟨k, List.mem_range.2 hk, hset⟩

namespace Graphics

theorem getLsbD_field {width b : Nat} (v : Double) (f : Nat) (hb : b < width) :
    (field width v f).getLsbD b = v.getLsbD (width * f + b) := by
  rw [field, BitVec.getLsbD_extractLsb']
  simp [hb]

/-- The bits of a field, from its top. -/
theorem getMsbD_field {width q : Nat} (v : Double) (f : Nat) (hq : q < width) :
    (field width v f).getMsbD q = v.getLsbD (width * f + (width - 1 - q)) := by
  rw [BitVec.getMsbD_eq_getLsbD, getLsbD_field v f (by omega), decide_eq_true hq, Bool.true_and]

end Graphics

/-! ## Operands and results -/

variable {β : Type}

namespace Executed

variable (e : Executed β)

/-- The first operand of a graphics instruction on 64 bits. -/
def left : Double := Execute.readBits e.before.regs.floats e.word.src1 true

/-- The second operand. -/
def right : Double := Execute.secondBits e.before e.word true

/-- The instruction delivers a result of 64 bits: to the graphics pipe if it is
pipelined, and else to its destination. -/
def Yields (v : Double) : Prop :=
  if e.word.pipelined then e.after.graphics.first = ⟨v, true⟩
  else e.after.regs.floats = e.before.regs.floats.writePair e.word.dest v

theorem yields_of_issue {i : Instruction} {c m : Cpu β} {v : Double}
    (hfloats : m.regs.floats = c.regs.floats) :
    Yields ⟨i, c, Execute.issue m i .graphics i.pipelined (.ofBits v true)⟩ v := by
  unfold Yields
  cases hpipelined : i.pipelined with
  | true => rfl
  | false => exact congrArg (fun r : FloatRegs => r.writePair i.dest v) hfloats

end Executed

end I860
