import I860.Float.Directed
import I860.Proofs.NumberGrids

/-!
# Directed rounding

A directed mode allows only results on one side of the exact value. The processor
gets there from the nearest number: if that is on the wrong side, its neighbour is
not, and there is no number in between (`IsNearestKey.directed`). It does not matter
how the processor has found out about the side.

The result is then the closest number that the mode allows (`closest_corrected`),
provided that the nearest one has a pattern.
-/

namespace I860

/-! ## What a mode asks for -/

/-- How far an extended number is from a rational one. -/
def ExtRat.distance (q : ℚ) : ExtRat → WithTop ℚ
  | ⊥ => ⊤
  | (a : WithTop ℚ) => a.map fun a => |a - q|

/-- An element of a set to which no other element is nearer. -/
def IsClosest (s : Set ExtRat) (q : ℚ) (a : ExtRat) : Prop :=
  a ∈ s ∧ ∀ b ∈ s, a.distance q ≤ b.distance q

namespace RoundingMode

/-- The side of the exact value on which a mode allows its result. -/
def Admits (mode : RoundingMode) (q : ℚ) (a : ExtRat) : Prop :=
  match mode with
  | .nearest => True
  | .down => a ≤ (q : ExtRat)
  | .up => (q : ExtRat) ≤ a
  | .zero => ((-|q| : ℚ) : ExtRat) ≤ a ∧ a ≤ ((|q| : ℚ) : ExtRat)

end RoundingMode
namespace FloatFormat

variable {w : Nat} (f : FloatFormat w)

/-- The numbers and infinities that a format has patterns for. -/
def values : Set ExtRat := {a | ∃ x, f.value? x = some a}

/-- The key of the number to which a mode rounds. -/
def IsDirectedKey (mode : RoundingMode) (q : ℚ) (n : Int) : Prop :=
  match mode with
  | .nearest => f.IsNearestKey q n
  | .down => f.ofKey n ≤ q ∧ q < f.ofKey (n + 1)
  | .up => f.ofKey (n - 1) < q ∧ q ≤ f.ofKey n
  | .zero =>
      if 0 ≤ q then f.ofKey n ≤ q ∧ q < f.ofKey (n + 1)
      else f.ofKey (n - 1) < q ∧ q ≤ f.ofKey n

/-- The key to which a mode moves the nearest one, by the side on which that is. -/
def correctedKey (mode : RoundingMode) (q : ℚ) (n : Int) : Int :=
  match mode with
  | .nearest => n
  | .down => if q < f.ofKey n then n - 1 else n
  | .up => if f.ofKey n < q then n + 1 else n
  | .zero =>
      if |q| < |f.ofKey n| then (if 0 < n then n - 1 else n + 1) else n

variable {f} {q : ℚ} {n : Int}

theorem IsNearestKey.lt_next (h : f.IsNearestKey q n) : q < f.ofKey (n + 1) := by
  by_contra hle
  have := h.le_of_le (not_lt.1 hle)
  omega

theorem IsNearestKey.prev_lt (h : f.IsNearestKey q n) : f.ofKey (n - 1) < q := by
  by_contra hle
  have := h.ge_of_ge (not_lt.1 hle)
  omega

theorem IsNearestKey.down (h : f.IsNearestKey q n) :
    f.ofKey (f.correctedKey .down q n) ≤ q ∧ q < f.ofKey (f.correctedKey .down q n + 1) := by
  unfold correctedKey
  dsimp only
  split
  · next hside =>
      rw [Int.sub_add_cancel]
      exact ⟨h.prev_lt.le, hside⟩
  · next hside => exact ⟨not_lt.1 hside, h.lt_next⟩

theorem IsNearestKey.up (h : f.IsNearestKey q n) :
    f.ofKey (f.correctedKey .up q n - 1) < q ∧ q ≤ f.ofKey (f.correctedKey .up q n) := by
  unfold correctedKey
  dsimp only
  split
  · next hside =>
      rw [Int.add_sub_cancel]
      exact ⟨hside, h.lt_next.le⟩
  · next hside => exact ⟨h.prev_lt, not_lt.1 hside⟩

theorem ofKey_nonneg_iff : 0 ≤ f.ofKey n ↔ 0 ≤ n := by
  rw [← f.ofKey_zero, f.ofKey_strictMono.le_iff_le]

theorem IsNearestKey.nonneg (h : f.IsNearestKey q n) (hq : 0 ≤ q) : 0 ≤ n :=
  h.le_of_le (f.ofKey_zero.trans_le hq)

theorem IsNearestKey.nonpos (h : f.IsNearestKey q n) (hq : q ≤ 0) : n ≤ 0 :=
  h.ge_of_ge (hq.trans_eq f.ofKey_zero.symm)

/-- Towards zero is down or up, by the sign of the exact value. -/
theorem IsNearestKey.correctedKey_zero (h : f.IsNearestKey q n) :
    f.correctedKey .zero q n = f.correctedKey (if 0 ≤ q then .down else .up) q n := by
  rcases le_or_gt 0 q with hq | hq
  · have hn := h.nonneg hq
    rw [if_pos hq]
    unfold correctedKey
    dsimp only
    rw [abs_of_nonneg hq, abs_of_nonneg (ofKey_nonneg_iff.2 hn)]
    split
    · next hside =>
        have hpos : 0 < n := by
          rw [← f.ofKey_strictMono.lt_iff_lt, ofKey_zero]
          exact hq.trans_lt hside
        rw [if_pos hpos]
    · rfl
  · have hn := h.nonpos hq.le
    have hvalue : f.ofKey n ≤ 0 := by
      rw [← f.ofKey_zero, f.ofKey_strictMono.le_iff_le]
      exact hn
    rw [if_neg (not_le.2 hq)]
    unfold correctedKey
    dsimp only
    rw [abs_of_neg hq, abs_of_nonpos hvalue]
    simp only [neg_lt_neg_iff, if_neg (not_lt.2 hn)]

/-- Moving the nearest key off the wrong side gives the directed one. -/
theorem IsNearestKey.directed (h : f.IsNearestKey q n) (mode : RoundingMode) :
    f.IsDirectedKey mode q (f.correctedKey mode q n) := by
  cases mode with
  | nearest => exact h
  | down => exact h.down
  | up => exact h.up
  | zero =>
      unfold IsDirectedKey
      dsimp only
      rw [h.correctedKey_zero]
      split
      · exact h.down
      · exact h.up

namespace IsDirectedKey

variable {mode : RoundingMode}

/-- A number that has a key is not changed in any mode. -/
theorem eq_of_ofKey {j : Int} (h : f.IsDirectedKey mode (f.ofKey j) n) : n = j := by
  have hdown : f.ofKey n ≤ f.ofKey j ∧ f.ofKey j < f.ofKey (n + 1) → n = j := by
    rintro ⟨hle, hlt⟩
    have := f.ofKey_strictMono.le_iff_le.1 hle
    have := f.ofKey_strictMono.lt_iff_lt.1 hlt
    omega
  have hup : f.ofKey (n - 1) < f.ofKey j ∧ f.ofKey j ≤ f.ofKey n → n = j := by
    rintro ⟨hlt, hle⟩
    have := f.ofKey_strictMono.lt_iff_lt.1 hlt
    have := f.ofKey_strictMono.le_iff_le.1 hle
    omega
  cases mode with
  | nearest => exact IsNearestKey.eq_of_ofKey h
  | down => exact hdown h
  | up => exact hup h
  | zero =>
      unfold IsDirectedKey at h
      dsimp only at h
      split at h
      · exact hdown h
      · exact hup h

end IsDirectedKey

/-! ## Tests on patterns -/

theorem lt_iff {x y : BitVec w} (hx : f.isFinite x = true) (hy : f.isFinite y = true) :
    f.lt x y = true ↔ f.toRat x < f.toRat y := by
  rw [lt, f.isNan_of_isFinite hx, f.isNan_of_isFinite hy, f.toRat_lt_iff hx hy]
  simp

theorem key_zero : f.key (0#w) = 0 := by
  have hsign : f.isNegative (0#w) = false ∧ f.magnitude (0#w) = 0 :=
    f.sign_magnitude_of_toNat (Nat.two_pow_pos _) (by simp)
  exact key_of_sign_magnitude hsign

theorem isNan_zero : f.isNan (0#w) = false := by
  rw [isNan_eq_false_iff, key_zero, abs_zero]
  exact Int.natCast_nonneg _

theorem isPositive_iff {x : BitVec w} (h : f.isNan x = false) :
    f.isPositive x = true ↔ 0 < f.key x := by
  rw [isPositive, lt, isNan_zero, h, key_zero]
  simp

theorem isBelowZero_iff {x : BitVec w} (h : f.isNan x = false) :
    f.isBelowZero x = true ↔ f.key x < 0 := by
  rw [isBelowZero, lt, isNan_zero, h, key_zero]
  simp

theorem isFinite_absolute {x : BitVec w} (h : f.isFinite x = true) :
    f.isFinite (f.absolute x) = true := by
  rw [f.isFinite_iff, key_absolute, abs_abs]
  exact (f.isFinite_iff x).1 h

theorem toRat_absolute {x : BitVec w} (h : f.isFinite x = true) :
    f.toRat (f.absolute x) = |f.toRat x| := by
  rw [f.toRat_eq_ofKey (isFinite_absolute h), key_absolute, ← abs_ofKey, f.toRat_eq_ofKey h]

/-- From all but infinity a step up leads to the next key, and not to a NaN. -/
theorem nextUp_spec [NeZero f.exponent] {x : BitVec w} (hnan : f.isNan x = false)
    (hinf : f.key x ≠ f.infinityBits) :
    f.isNan (f.nextUp x) = false ∧ f.key (f.nextUp x) = f.key x + 1 := by
  have hmem := abs_le.1 ((f.isNan_eq_false_iff x).1 hnan)
  have hkey := f.key_nextUp hnan hinf
  rw [isNan_eq_false_iff, hkey, abs_le]
  exact ⟨by omega, rfl⟩

theorem nextDown_spec [NeZero f.exponent] {x : BitVec w} (hnan : f.isNan x = false)
    (hinf : f.key x ≠ -f.infinityBits) :
    f.isNan (f.nextDown x) = false ∧ f.key (f.nextDown x) = f.key x - 1 := by
  have hmem := abs_le.1 ((f.isNan_eq_false_iff x).1 hnan)
  have hkey := f.key_nextDown hnan hinf
  rw [isNan_eq_false_iff, hkey, abs_le]
  exact ⟨by omega, rfl⟩

/-- The neighbours of a finite number are no NaNs. -/
theorem isNan_nextUp [NeZero f.exponent] {x : BitVec w} (h : f.isFinite x = true) :
    f.isNan (f.nextUp x) = false ∧ f.key (f.nextUp x) = f.key x + 1 := by
  have hmem := key_mem_of_isFinite h
  exact nextUp_spec (f.isNan_of_isFinite h) (by omega)

theorem isNan_nextDown [NeZero f.exponent] {x : BitVec w} (h : f.isFinite x = true) :
    f.isNan (f.nextDown x) = false ∧ f.key (f.nextDown x) = f.key x - 1 := by
  have hmem := key_mem_of_isFinite h
  exact nextDown_spec (f.isNan_of_isFinite h) (by omega)

/-! ## The two formats -/

variable (f) in
/-- The exponent of the first power of two that has no pattern. -/
def topScale : Int := f.fraction + f.topField - 1 + f.leastScale

theorem ofKey_infinityBits [NeZero f.exponent] : f.ofKey f.infinityBits = 2 ^ f.topScale := by
  have hpos : 0 < 2 ^ f.fraction := Nat.two_pow_pos _
  have hfield : 0 < f.topField := Nat.pos_of_mul_pos_right f.infinityBits_pos
  obtain ⟨g, hg⟩ := Nat.exists_eq_succ_of_ne_zero hfield.ne'
  have hfields : f.infinityBits = 2 ^ f.fraction * (g + 1) + 0 := by
    rw [infinityBits, hg, Nat.mul_comm, Nat.add_zero]
  rw [ofKey_natCast, hfields, f.units_fields g hpos, least, topScale, hg]
  push_cast
  rw [← zpow_natCast, ← zpow_natCast, add_zero, ← zpow_add₀ two_ne_zero, ← zpow_add₀ two_ne_zero]
  congr 1
  omega

theorem abs_toRat_lt [NeZero f.exponent] {x : BitVec w} (h : f.isFinite x = true) :
    |f.toRat x| < 2 ^ f.topScale :=
  ((abs_toRat_le_largest h).trans_lt largest_lt_overflow).trans
    (overflow_lt.trans_eq ofKey_infinityBits)

theorem two_zpow_le_overflow [NeZero f.exponent] : 2 ^ (f.topScale - 1) ≤ f.overflow := by
  have hlargest : 0 ≤ f.largest := by
    have := f.infinityBits_pos
    rw [largest, ofKey_nonneg_iff]
    omega
  rw [zpow_sub_one₀ two_ne_zero, ← ofKey_infinityBits, overflow]
  linarith

/-! ## The closest number that a mode allows -/

variable {j : Int} {mode : RoundingMode}

theorem extOfKey_le_ofKey (h : n < f.infinityBits) : f.extOfKey n ≤ f.ofKey n := by
  unfold extOfKey
  split
  · exact bot_le
  · rw [if_neg (not_le.2 h)]

theorem ofKey_le_extOfKey (h : -(f.infinityBits : Int) < n) : f.ofKey n ≤ f.extOfKey n := by
  unfold extOfKey
  rw [if_neg (not_le.2 h)]
  split
  · exact WithBot.coe_le_coe.2 le_top
  · exact le_rfl

/-- An infinity is farther away than any number. -/
theorem distance_of_infinite [NeZero f.exponent] (h : |j| = f.infinityBits) :
    ExtRat.distance q (f.extOfKey j) = ⊤ := by
  rcases abs_choice j with hsign | hsign
  · rw [← hsign, h, extOfKey_infinityBits]
    rfl
  · have hneg : j = -f.infinityBits := by omega
    rw [hneg, extOfKey_neg_infinityBits]
    rfl

theorem not_top_le_coe {a : ℚ} : ¬(⊤ : ExtRat) ≤ (a : ExtRat) :=
  not_le.2 (WithBot.coe_lt_coe.2 (WithTop.coe_lt_top a))

theorem not_coe_le_bot {a : ℚ} : ¬(a : ExtRat) ≤ ⊥ := not_le.2 (WithBot.bot_lt_coe _)

namespace IsDirectedKey

/-- The directed key has the nearest of all numbers that the mode allows. -/
theorem distance_le (h : f.IsDirectedKey mode q n) (hj : mode.Admits q (f.ofKey j)) :
    |f.ofKey n - q| ≤ |f.ofKey j - q| := by
  have hdown : f.ofKey n ≤ q ∧ q < f.ofKey (n + 1) → f.ofKey j ≤ q →
      |f.ofKey n - q| ≤ |f.ofKey j - q| := by
    rintro ⟨hle, hlt⟩ hside
    have hkey : j < n + 1 := f.ofKey_strictMono.lt_iff_lt.1 (hside.trans_lt hlt)
    have horder : f.ofKey j ≤ f.ofKey n := f.ofKey_strictMono.monotone (by omega)
    rw [abs_of_nonpos (by linarith), abs_of_nonpos (by linarith)]
    linarith
  have hup : f.ofKey (n - 1) < q ∧ q ≤ f.ofKey n → q ≤ f.ofKey j →
      |f.ofKey n - q| ≤ |f.ofKey j - q| := by
    rintro ⟨hlt, hle⟩ hside
    have hkey : n - 1 < j := f.ofKey_strictMono.lt_iff_lt.1 (hlt.trans_le hside)
    have horder : f.ofKey n ≤ f.ofKey j := f.ofKey_strictMono.monotone (by omega)
    rw [abs_of_nonneg (by linarith), abs_of_nonneg (by linarith)]
    linarith
  cases mode with
  | nearest => exact IsNearestKey.nearest h j
  | down => exact hdown h (WithBotTop.coe_le_coe.1 hj)
  | up => exact hup h (WithBotTop.coe_le_coe.1 hj)
  | zero =>
      obtain ⟨hlow, hhigh⟩ := hj
      rw [WithBotTop.coe_le_coe] at hlow hhigh
      unfold IsDirectedKey at h
      dsimp only at h
      split at h
      · next hq => exact hdown h (by rwa [abs_of_nonneg hq] at hhigh)
      · next hq => exact hup h (by rwa [abs_of_neg (not_le.1 hq), neg_neg] at hlow)

end IsDirectedKey

namespace IsNearestKey

theorem corrected_down_le : f.correctedKey .down q n ≤ n := by
  unfold correctedKey
  dsimp only
  split <;> omega

theorem le_corrected_up : n ≤ f.correctedKey .up q n := by
  unfold correctedKey
  dsimp only
  split <;> omega

theorem corrected_down_nonneg (h : f.IsNearestKey q n) (hq : 0 ≤ q) :
    0 ≤ f.correctedKey .down q n := by
  have hless : f.ofKey 0 < f.ofKey (f.correctedKey .down q n + 1) :=
    (f.ofKey_zero.trans_le hq).trans_lt h.down.2
  have := f.ofKey_strictMono.lt_iff_lt.1 hless
  omega

theorem corrected_up_nonpos (h : f.IsNearestKey q n) (hq : q ≤ 0) :
    f.correctedKey .up q n ≤ 0 := by
  have hless : f.ofKey (f.correctedKey .up q n - 1) < f.ofKey 0 :=
    (h.up.1.trans_le hq).trans_eq f.ofKey_zero.symm
  have := f.ofKey_strictMono.lt_iff_lt.1 hless
  omega

/-- If the nearest key has a pattern, the corrected one is on the side that the mode
allows. Towards zero it has a pattern as well. -/
theorem admits_corrected [NeZero f.exponent] (h : f.IsNearestKey q n)
    (hn : |n| < f.infinityBits) (mode : RoundingMode) :
    mode.Admits q (f.extOfKey (f.correctedKey mode q n)) := by
  obtain ⟨hlow, hhigh⟩ := abs_lt.1 hn
  cases mode with
  | nearest => exact trivial
  | down =>
      have hkey : f.correctedKey .down q n ≤ n := corrected_down_le
      exact (extOfKey_le_ofKey (by omega)).trans (WithBotTop.coe_le_coe.2 h.down.1)
  | up =>
      have hkey : n ≤ f.correctedKey .up q n := le_corrected_up
      exact (WithBotTop.coe_le_coe.2 h.up.2).trans (ofKey_le_extOfKey (by omega))
  | zero =>
      rw [h.correctedKey_zero]
      rcases le_or_gt 0 q with hq | hq
      · have hnonneg := h.corrected_down_nonneg hq
        have hkey : f.correctedKey .down q n ≤ n := corrected_down_le
        rw [if_pos hq, f.extOfKey_of_lt (abs_lt.2 ⟨by omega, by omega⟩), RoundingMode.Admits,
          WithBotTop.coe_le_coe, WithBotTop.coe_le_coe, abs_of_nonneg hq]
        exact ⟨(neg_nonpos.2 hq).trans (ofKey_nonneg_iff.2 hnonneg), h.down.1⟩
      · have hnonpos := h.corrected_up_nonpos hq.le
        have hkey : n ≤ f.correctedKey .up q n := le_corrected_up
        have hvalue : f.ofKey (f.correctedKey .up q n) ≤ 0 :=
          (f.ofKey_strictMono.monotone hnonpos).trans_eq f.ofKey_zero
        rw [if_neg (not_le.2 hq), f.extOfKey_of_lt (abs_lt.2 ⟨by omega, by omega⟩),
          RoundingMode.Admits, WithBotTop.coe_le_coe, WithBotTop.coe_le_coe, abs_of_neg hq, neg_neg]
        exact ⟨h.up.2, hvalue.trans (by linarith)⟩

/-- If there is any number with a pattern that the mode allows, the corrected key is
that of such a number too. -/
theorem abs_corrected_lt [NeZero f.exponent] (h : f.IsNearestKey q n) (hn : |n| < f.infinityBits)
    (hj : |j| < f.infinityBits) (hside : mode.Admits q (f.ofKey j)) :
    |f.correctedKey mode q n| < f.infinityBits := by
  obtain ⟨hlow, hhigh⟩ := abs_lt.1 hn
  obtain ⟨hlowj, hhighj⟩ := abs_lt.1 hj
  cases mode with
  | nearest => exact hn
  | down =>
      have hkey : f.correctedKey .down q n ≤ n := corrected_down_le
      have hless : f.ofKey j < f.ofKey (f.correctedKey .down q n + 1) :=
        (WithBotTop.coe_le_coe.1 hside).trans_lt h.down.2
      have := f.ofKey_strictMono.lt_iff_lt.1 hless
      exact abs_lt.2 ⟨by omega, by omega⟩
  | up =>
      have hkey : n ≤ f.correctedKey .up q n := le_corrected_up
      have hless : f.ofKey (f.correctedKey .up q n - 1) < f.ofKey j :=
        h.up.1.trans_le (WithBotTop.coe_le_coe.1 hside)
      have := f.ofKey_strictMono.lt_iff_lt.1 hless
      exact abs_lt.2 ⟨by omega, by omega⟩
  | zero =>
      rw [h.correctedKey_zero]
      rcases le_or_gt 0 q with hq | hq
      · have hnonneg := h.corrected_down_nonneg hq
        have hkey : f.correctedKey .down q n ≤ n := corrected_down_le
        rw [if_pos hq]
        exact abs_lt.2 ⟨by omega, by omega⟩
      · have hnonpos := h.corrected_up_nonpos hq.le
        have hkey : n ≤ f.correctedKey .up q n := le_corrected_up
        rw [if_neg (not_le.2 hq)]
        exact abs_lt.2 ⟨by omega, by omega⟩

/-- If the nearest key has a pattern, no number that the mode allows is closer than
the one with the corrected key. -/
theorem closest_corrected [NeZero f.exponent] (h : f.IsNearestKey q n)
    (hn : |n| < f.infinityBits) {x : BitVec w}
    (hx : f.isNan x = false ∧ f.key x = f.correctedKey mode q n) :
    ∃ a, f.value? x = some a ∧ IsClosest {b | b ∈ f.values ∧ mode.Admits q b} q a := by
  have hvalue : f.value? x = some (f.extOfKey (f.correctedKey mode q n)) :=
    hx.2 ▸ f.value?_eq hx.1
  refine ⟨_, hvalue, ⟨⟨x, hvalue⟩, h.admits_corrected hn mode⟩, ?_⟩
  rintro b ⟨⟨y, hy⟩, hb⟩
  obtain ⟨j, hj, rfl⟩ := f.exists_key_of_value? hy
  rcases lt_or_eq_of_le hj with hlt | htop
  · rw [f.extOfKey_of_lt hlt] at hb ⊢
    rw [f.extOfKey_of_lt (h.abs_corrected_lt hn hlt hb)]
    exact WithTop.coe_le_coe.2 ((h.directed mode).distance_le hb)
  · rw [distance_of_infinite htop]
    exact le_top

end IsNearestKey

end FloatFormat

end I860
