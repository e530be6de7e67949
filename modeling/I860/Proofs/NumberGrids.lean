import I860.Proofs.FloatArithmetic
import Mathlib.Algebra.Group.Subgroup.ZPowers.Basic

/-!
# Numbers on grids

Whether a rational number is a number of a format depends on two things: it has to
be a multiple of a power of two, not too small a one, and not too large a multiple
of it. So numbers are handled with the groups of multiples (`grid`): sums and
differences stay on a grid, and a point of a grid that is small enough is a number
(`IsNumber.of_grid`). With a large number it is the other way round, and it cannot
but lie on a coarse grid (`IsNumber.mem_grid_of_le`).

Exponents have no upper end here, as in `ofKey`.
-/

namespace I860

/-- The multiples of a power of two. -/
def grid (k : Int) : AddSubgroup ℚ := AddSubgroup.zmultiples (2 ^ k)

theorem mem_grid {k : Int} {q : ℚ} : q ∈ grid k ↔ ∃ i : Int, q = i * 2 ^ k := by
  rw [grid, AddSubgroup.mem_zmultiples_iff]
  exact exists_congr fun i => by rw [zsmul_eq_mul, eq_comm]

theorem two_zpow_mem_grid (k : Int) : (2 : ℚ) ^ k ∈ grid k := AddSubgroup.mem_zmultiples _

/-- A coarser grid is part of a finer one. -/
theorem grid_antitone {j k : Int} (h : j ≤ k) : grid k ≤ grid j := by
  intro q hq
  obtain ⟨i, rfl⟩ := mem_grid.1 hq
  refine mem_grid.2 ⟨i * 2 ^ (k - j).toNat, ?_⟩
  have hsplit : (2 : ℚ) ^ k = 2 ^ (k - j).toNat * 2 ^ j := by
    rw [← zpow_natCast, ← zpow_add₀ two_ne_zero]
    congr 1
    omega
  rw [hsplit]
  push_cast
  ring

/-- A point of a grid below a power of two stays below it by a step of the grid. -/
theorem le_sub_of_mem_grid {k j : Int} (hkj : k ≤ j) {q : ℚ} (hq : q ∈ grid k)
    (hlt : |q| < 2 ^ j) : |q| ≤ 2 ^ j - 2 ^ k := by
  obtain ⟨i, rfl⟩ := mem_grid.1 hq
  obtain ⟨p, hp⟩ := mem_grid.1 (grid_antitone hkj (two_zpow_mem_grid j))
  have hpos : (0 : ℚ) < 2 ^ k := zpow_pos two_pos _
  rw [abs_mul, abs_of_pos hpos, hp] at hlt ⊢
  have hint : |i| < p := by
    have := lt_of_mul_lt_mul_right hlt hpos.le
    exact_mod_cast this
  have hstep : ((|i| : Int) : ℚ) ≤ ((p - 1 : Int) : ℚ) := by exact_mod_cast (by omega)
  push_cast at hstep
  nlinarith

namespace FloatFormat

variable {w : Nat} (f : FloatFormat w)

/-- A number of the format, with exponents that have no upper end. -/
def IsNumber (q : ℚ) : Prop := ∃ n, f.ofKey n = q

/-- The bits of a significand. -/
def precision : Int := f.fraction + 1

/-- All magnitudes are points of a grid on which they are small. -/
theorem exists_units_grid (k : Nat) :
    ∃ g i : Nat, f.units k = i * 2 ^ g ∧ i < 2 ^ (f.fraction + 1) := by
  have hsucc : 2 ^ (f.fraction + 1) = 2 ^ f.fraction + 2 ^ f.fraction := by
    rw [Nat.pow_succ, Nat.mul_two]
  rcases f.lt_or_exists_fields k with hsmall | ⟨g, r, hr, rfl⟩
  · exact ⟨0, k, by rw [f.units_of_lt hsmall, Nat.pow_zero, Nat.mul_one], by omega⟩
  · exact ⟨g, _, f.units_fields g hr, by omega⟩

/-- The points of a grid that are small on it are magnitudes. -/
theorem exists_units_eq (g : Nat) : ∀ {i : Nat}, i ≤ 2 ^ (f.fraction + 1) →
    ∃ k, f.units k = i * 2 ^ g := by
  induction g with
  | zero => exact fun hi => ⟨_, f.units_grid hi (.inl rfl)⟩
  | succ g ih =>
      intro i hi
      rcases Nat.lt_or_ge i (2 ^ f.fraction) with hsmall | hlarge
      · have hdouble : 2 * i ≤ 2 ^ (f.fraction + 1) := by
          rw [Nat.pow_succ]
          omega
        obtain ⟨k, hk⟩ := ih hdouble
        exact ⟨k, by rw [hk, Nat.pow_succ, Nat.mul_comm 2, Nat.mul_assoc, Nat.mul_comm 2]⟩
      · exact ⟨_, f.units_grid hi (.inr hlarge)⟩

theorem two_zpow_scale (g : Nat) : (2 : ℚ) ^ (f.leastScale + g) = 2 ^ g * f.least := by
  rw [zpow_add₀ two_ne_zero, zpow_natCast, least, mul_comm]

namespace IsNumber

variable {f} {q r : ℚ}

theorem zero : f.IsNumber 0 := ⟨0, f.ofKey_zero⟩

theorem neg (h : f.IsNumber q) : f.IsNumber (-q) := by
  obtain ⟨n, rfl⟩ := h
  exact ⟨-n, f.ofKey_neg n⟩

theorem ofToRat {x : BitVec w} (hx : f.isFinite x = true) : f.IsNumber (f.toRat x) :=
  ⟨_, (f.toRat_eq_ofKey hx).symm⟩

theorem exists_grid (h : f.IsNumber q) :
    ∃ k, f.leastScale ≤ k ∧ q ∈ grid k ∧ |q| < 2 ^ (f.precision + k) := by
  obtain ⟨n, rfl⟩ := h
  obtain ⟨g, i, hunits, hi⟩ := f.exists_units_grid n.natAbs
  have habs : |f.ofKey n| = i * (2 ^ g * f.least) := by
    rw [abs_ofKey, Int.abs_eq_natAbs, ofKey_natCast, hunits]
    push_cast
    ring
  refine ⟨f.leastScale + g, by omega, ?_, ?_⟩
  · rw [mem_grid, two_zpow_scale]
    rcases abs_choice (f.ofKey n) with hsign | hsign
    · exact ⟨i, by rw [← hsign, habs, Int.cast_natCast]⟩
    · exact ⟨-i, by
        rw [Int.cast_neg, neg_mul, Int.cast_natCast, ← habs, hsign, neg_neg]⟩
  · rw [habs, precision, zpow_add₀ two_ne_zero, two_zpow_scale]
    refine mul_lt_mul_of_pos_right ?_ (mul_pos (by positivity) f.least_pos)
    exact_mod_cast hi

theorem of_grid {k : Int} (hk : f.leastScale ≤ k) (hq : q ∈ grid k)
    (hle : |q| ≤ 2 ^ (f.precision + k)) : f.IsNumber q := by
  obtain ⟨i, rfl⟩ := mem_grid.1 hq
  obtain ⟨g, rfl⟩ := Int.exists_add_of_le hk
  have hunit : (0 : ℚ) < 2 ^ g * f.least := mul_pos (by positivity) f.least_pos
  rw [f.two_zpow_scale] at hle ⊢
  have hi : i.natAbs ≤ 2 ^ (f.fraction + 1) := by
    rw [abs_mul, abs_of_pos hunit, precision, zpow_add₀ two_ne_zero, two_zpow_scale] at hle
    have hbound := le_of_mul_le_mul_right hle hunit
    have hint : |i| ≤ 2 ^ (f.fraction + 1) := by exact_mod_cast hbound
    rw [Int.abs_eq_natAbs] at hint
    exact_mod_cast hint
  obtain ⟨k, hk⟩ := f.exists_units_eq g hi
  have hnat : f.IsNumber ((i.natAbs : ℚ) * (2 ^ g * f.least)) := by
    refine ⟨k, ?_⟩
    rw [ofKey_natCast, hk]
    push_cast
    ring
  rcases Int.natAbs_eq i with hsign | hsign
  · rw [hsign, Int.cast_natCast]
    exact hnat
  · rw [hsign, Int.cast_neg, Int.cast_natCast, neg_mul]
    exact hnat.neg

/-- A large number lies on a coarse grid. -/
theorem mem_grid_of_le (h : f.IsNumber q) {k : Int} (hle : 2 ^ (f.precision + k) ≤ |q|) :
    q ∈ grid (k + 1) := by
  obtain ⟨j, -, hgrid, hlt⟩ := h.exists_grid
  have hless : f.precision + k < f.precision + j :=
    (zpow_lt_zpow_iff_right₀ one_lt_two).1 (hle.trans_lt hlt)
  exact grid_antitone (by omega) hgrid

/-- A difference that is no larger than either number is a number itself. -/
theorem sub (hq : f.IsNumber q) (hr : f.IsNumber r) (hle : |q - r| ≤ |q|) (hle' : |q - r| ≤ |r|) :
    f.IsNumber (q - r) := by
  obtain ⟨j, hj, hqgrid, hqlt⟩ := hq.exists_grid
  obtain ⟨k, hk, hrgrid, hrlt⟩ := hr.exists_grid
  rcases le_total j k with hjk | hkj
  · exact of_grid hj (sub_mem hqgrid (grid_antitone hjk hrgrid)) (hle.trans hqlt.le)
  · exact of_grid hk (sub_mem (grid_antitone hkj hqgrid) hrgrid) (hle'.trans hrlt.le)

/-- A format with more bits and smaller scales has all numbers of another. -/
theorem of_format {v : Nat} {g : FloatFormat v} (hscale : g.leastScale ≤ f.leastScale)
    (hprecision : f.precision ≤ g.precision) (h : f.IsNumber q) : g.IsNumber q := by
  obtain ⟨k, hk, hgrid, hlt⟩ := h.exists_grid
  refine of_grid (hscale.trans hk) hgrid (hlt.le.trans ?_)
  exact zpow_le_zpow_right₀ one_le_two (by omega)

end IsNumber

end FloatFormat

end I860
