import I860.Float.Directed
import I860.Proofs.NumberGrids
import Mathlib.Algebra.Order.Archimedean.Basic

/-!
# Errors of sums

What rounding a sum of two numbers loses is a number itself (`IsNearest.isNumber_error`):
it lies on the finer of the two operands' grids, and it is no larger than that operand.
The processor has to find that number with rounded operations only.

If the operand that it takes from the sum again is the larger one, the difference is
a number (`IsNearest.isNumber_sub_larger`), so nothing is rounded from there on. If it
is the smaller one, there is a second error. That is no larger than the first, and
both together are so small that the rest is exact again (`SmallerFirst`).

Exponents have no upper end in these arguments. That the steps have patterns follows
from the operands, with one exception that `twoSum_spec` has as a hypothesis: the
difference of the sum and the first operand can overflow, though the sum has not.
-/

namespace I860

namespace FloatFormat

variable {w : Nat} (f : FloatFormat w)

/-- A number to which no other is nearer. -/
structure IsNearest (q s : ℚ) : Prop where
  isNumber : f.IsNumber s
  le : ∀ y, f.IsNumber y → |s - q| ≤ |y - q|

/-- A number that is small enough to have a pattern. -/
def Representable (q : ℚ) : Prop := f.IsNumber q ∧ |q| < f.overflow

variable {f} {q s a b c d : ℚ} {k : Int}

theorem IsNumber.two_zpow (h : f.leastScale ≤ k) : f.IsNumber (2 ^ k) := by
  refine of_grid h (two_zpow_mem_grid k) ?_
  rw [abs_of_pos (zpow_pos two_pos _)]
  exact zpow_le_zpow_right₀ one_le_two (by rw [precision]; omega)

theorem IsNumber.mem_grid_least (h : f.IsNumber q) : q ∈ grid f.leastScale := by
  obtain ⟨k, hk, hgrid, -⟩ := h.exists_grid
  exact grid_antitone hk hgrid

/-- What is not too fine for a number, but is none, lies above the powers of two that
its grid has numbers for. -/
theorem exists_scale_of_not_isNumber (hq : q ∈ grid f.leastScale) (h : ¬f.IsNumber q) :
    ∃ j, f.leastScale ≤ j ∧ 2 ^ (f.precision + j) < |q| ∧ |q| ≤ 2 ^ (f.precision + (j + 1)) := by
  have hne : q ≠ 0 := fun hzero => h (hzero ▸ .zero)
  obtain ⟨n, hlow, hhigh⟩ := exists_mem_Ioc_zpow (abs_pos.2 hne) (one_lt_two (α := ℚ))
  refine ⟨n - f.precision, ?_, by rwa [add_sub_cancel], ?_⟩
  · by_contra hlt
    refine h (IsNumber.of_grid le_rfl hq (hhigh.trans ?_))
    exact zpow_le_zpow_right₀ one_le_two (by omega)
  · have hexponent : f.precision + (n - f.precision + 1) = n + 1 := by omega
    rwa [hexponent]

namespace IsNearest

theorem neg (h : f.IsNearest q s) : f.IsNearest (-q) (-s) := by
  have hflip : ∀ y, |y - -q| = |-y - q| := fun y => by
    rw [← abs_neg]
    congr 1
    ring
  refine ⟨h.isNumber.neg, fun y hy => ?_⟩
  rw [hflip, hflip, neg_neg]
  exact h.le (-y) hy.neg

/-- Rounding does not pass over a number. -/
theorem ge_of_ge (h : f.IsNearest q s) (hc : f.IsNumber c) (hle : c ≤ q) : c ≤ s := by
  by_contra hlt
  have hnear := h.le c hc
  rw [abs_of_nonpos (by linarith), abs_of_nonpos (by linarith)] at hnear
  linarith

theorem le_of_le (h : f.IsNearest q s) (hc : f.IsNumber c) (hle : q ≤ c) : s ≤ c := by
  have := h.neg.ge_of_ge hc.neg (by linarith)
  linarith

theorem eq_of_isNumber (h : f.IsNearest q s) (hq : f.IsNumber q) : s = q :=
  le_antisymm (h.le_of_le hq le_rfl) (h.ge_of_ge hq le_rfl)

theorem le_abs_of_le (h : f.IsNearest q s) (hc : f.IsNumber c) (hle : c ≤ |q|) : c ≤ |s| := by
  rcases le_total 0 q with hq | hq
  · rw [abs_of_nonneg hq] at hle
    exact (h.ge_of_ge hc hle).trans (le_abs_self s)
  · rw [abs_of_nonpos hq] at hle
    exact (h.neg.ge_of_ge hc hle).trans (neg_le_abs s)

/-- The number nearest to a point of a grid is on the grid. -/
theorem mem_grid (h : f.IsNearest q s) (hk : f.leastScale ≤ k) (hq : q ∈ grid k) :
    s ∈ grid k := by
  rcases le_total |q| (2 ^ (f.precision + k)) with hsmall | hlarge
  · rw [h.eq_of_isNumber (.of_grid hk hq hsmall)]
    exact hq
  · have hbound : f.IsNumber (2 ^ (f.precision + k)) :=
      .two_zpow (by rw [precision]; omega)
    exact grid_antitone (by omega) (h.isNumber.mem_grid_of_le (h.le_abs_of_le hbound hlarge))

/-- The error is at most half a step of a grid that has all its points here. -/
theorem error_le (h : f.IsNearest q s) (hk : f.leastScale ≤ k)
    (hq : |q| ≤ 2 ^ (f.precision + k)) : |s - q| ≤ 2 ^ k / 2 := by
  have hunit : (0 : ℚ) < 2 ^ k := zpow_pos two_pos k
  have hround := abs_sub_round (q / 2 ^ k)
  have hscaled : q / 2 ^ k * 2 ^ k = q := div_mul_cancel₀ q hunit.ne'
  have hbound : |q / 2 ^ k| ≤ 2 ^ (f.fraction + 1) := by
    rw [abs_div, abs_of_pos hunit, div_le_iff₀ hunit]
    rwa [zpow_add₀ two_ne_zero, precision] at hq
  have hpoint : |round (q / 2 ^ k)| ≤ 2 ^ (f.fraction + 1) := by
    have hlow := (abs_le.1 hround).1
    have hhigh := (abs_le.1 hround).2
    obtain ⟨hlow', hhigh'⟩ := abs_le.1 hbound
    have hless : (|round (q / 2 ^ k)| : ℚ) < 2 ^ (f.fraction + 1) + 1 :=
      abs_lt.2 ⟨by linarith, by linarith⟩
    exact Int.lt_add_one_iff.1 (by exact_mod_cast hless)
  have hnumber : f.IsNumber (round (q / 2 ^ k) * 2 ^ k) := by
    refine .of_grid hk (I860.mem_grid.2 ⟨_, rfl⟩) ?_
    rw [abs_mul, abs_of_pos hunit, zpow_add₀ two_ne_zero, precision]
    exact mul_le_mul_of_nonneg_right (by exact_mod_cast hpoint) hunit.le
  calc |s - q| ≤ |round (q / 2 ^ k) * 2 ^ k - q| := h.le _ hnumber
    _ = |q / 2 ^ k - round (q / 2 ^ k)| * 2 ^ k := by
        rw [abs_sub_comm, ← abs_of_pos hunit, ← abs_mul, abs_of_pos hunit, sub_mul, hscaled]
    _ ≤ 1 / 2 * 2 ^ k := mul_le_mul_of_nonneg_right hround hunit.le
    _ = 2 ^ k / 2 := by ring

/-- The error of a sum is no larger than an operand. -/
theorem error_le_left (h : f.IsNearest (a + b) s) (hb : f.IsNumber b) : |s - (a + b)| ≤ |a| := by
  have hle := h.le b hb
  rwa [sub_add_cancel_right, abs_neg] at hle

theorem error_le_right (h : f.IsNearest (a + b) s) (ha : f.IsNumber a) :
    |s - (a + b)| ≤ |b| := by
  rw [add_comm] at h ⊢
  exact h.error_le_left ha

/-- The error of a sum is a number. -/
theorem isNumber_error (h : f.IsNearest (a + b) s) (ha : f.IsNumber a) (hb : f.IsNumber b) :
    f.IsNumber (s - (a + b)) := by
  obtain ⟨i, hi, hagrid, halt⟩ := ha.exists_grid
  obtain ⟨j, hj, hbgrid, hblt⟩ := hb.exists_grid
  rcases le_total i j with hij | hji
  · have hsum := add_mem hagrid (grid_antitone hij hbgrid)
    exact .of_grid hi (sub_mem (h.mem_grid hi hsum) hsum) ((h.error_le_left hb).trans halt.le)
  · have hsum := add_mem (grid_antitone hji hagrid) hbgrid
    exact .of_grid hj (sub_mem (h.mem_grid hj hsum) hsum) ((h.error_le_right ha).trans hblt.le)

/-- The larger operand can be taken from a rounded sum exactly. -/
theorem isNumber_sub_larger (h : f.IsNearest (a + b) s) (ha : f.IsNumber a) (hb : f.IsNumber b)
    (hle : |b| ≤ |a|) : f.IsNumber (s - a) := by
  by_cases hexact : f.IsNumber (a + b)
  · rw [h.eq_of_isNumber hexact, add_sub_cancel_left]
    exact hb
  obtain ⟨j, hj, hlow, hhigh⟩ :=
    exists_scale_of_not_isNumber (add_mem ha.mem_grid_least hb.mem_grid_least) hexact
  have hprecision : 1 ≤ f.precision := by
    rw [precision]
    omega
  have hhalf : (2 : ℚ) ^ (f.precision + j) = 2 * 2 ^ (f.precision + (j - 1)) := by
    rw [← zpow_one_add₀ two_ne_zero]
    congr 1
    omega
  have hstep : (2 : ℚ) ^ j ≤ 2 ^ (f.precision + (j - 1)) :=
    zpow_le_zpow_right₀ one_le_two (by omega)
  have hagrid : a ∈ grid j := by
    have htriangle := abs_add_le a b
    have hlarge := ha.mem_grid_of_le (k := j - 1) (by linarith)
    rwa [sub_add_cancel] at hlarge
  have hbound : f.IsNumber (2 ^ (f.precision + j)) := .two_zpow (by omega)
  have hsgrid : s ∈ grid j :=
    grid_antitone (by omega) (h.isNumber.mem_grid_of_le (h.le_abs_of_le hbound hlow.le))
  -- The smaller operand is below the power of two, or the sum is a point of the next grid.
  have hbsmall : |b| < 2 ^ (f.precision + j) := by
    by_contra hge
    have hblarge := not_lt.1 hge
    have hsum := add_mem (ha.mem_grid_of_le (hblarge.trans hle)) (hb.mem_grid_of_le hblarge)
    exact hexact (.of_grid (by omega) hsum hhigh)
  have hbstep : |b| ≤ 2 ^ (f.precision + j) - 2 ^ j := by
    rcases le_total |b| (2 ^ (f.precision + (j - 1))) with hfew | hmany
    · linarith
    · have hbgrid := hb.mem_grid_of_le hmany
      rw [sub_add_cancel] at hbgrid
      exact le_sub_of_mem_grid (by omega) hbgrid hbsmall
  have herror : |s - (a + b)| ≤ 2 ^ j := by
    refine (h.error_le (by omega) hhigh).trans_eq ?_
    rw [zpow_add_one₀ two_ne_zero, mul_div_assoc, div_self two_ne_zero, mul_one]
  refine .of_grid hj (sub_mem hsgrid hagrid) ?_
  calc |s - a| = |s - (a + b) + b| := by congr 1; ring
    _ ≤ |s - (a + b)| + |b| := abs_add_le _ _
    _ ≤ 2 ^ (f.precision + j) := by linarith

/-- The error of a sum is small against the larger operand. -/
theorem four_mul_error_le (hfraction : 2 ≤ f.fraction) (h : f.IsNearest (a + b) s)
    (ha : f.IsNumber a) (hb : f.IsNumber b) (hle : |a| ≤ |b|) : 4 * |s - (a + b)| ≤ |b| := by
  by_cases hexact : f.IsNumber (a + b)
  · rw [h.eq_of_isNumber hexact, sub_self, abs_zero, mul_zero]
    exact abs_nonneg b
  obtain ⟨j, hj, hlow, hhigh⟩ :=
    exists_scale_of_not_isNumber (add_mem ha.mem_grid_least hb.mem_grid_least) hexact
  have herror := h.error_le (by omega) hhigh
  have hscale : (2 : ℚ) ^ (j + 1) * 4 ≤ 2 ^ (f.precision + j) := by
    have hfour : (2 : ℚ) ^ (j + 1) * 4 = 2 ^ (j + 3) := by
      rw [show j + 3 = j + 1 + 2 by omega, zpow_add₀ two_ne_zero (j + 1)]
      norm_num
    rw [hfour]
    exact zpow_le_zpow_right₀ one_le_two (by rw [precision]; omega)
  have htriangle := abs_add_le a b
  linarith

end IsNearest

/-- What is known about a rounded sum `s` of `a` and `b`, and the rounded difference
`d` of that and `a`, if `a` is the smaller operand and the sum is inexact. -/
structure SmallerFirst (f : FloatFormat w) (a b s d : ℚ) : Prop where
  isNumber_sub : f.IsNumber (s - d)
  isNumber_second : f.IsNumber (a - (s - d))
  isNumber_rest : f.IsNumber (b - d)
  smaller_le : |a| ≤ |s|
  second_le : |a - (s - d)| ≤ |a|
  rest_le : |b - d| ≤ |b|

theorem IsNearest.smallerFirst (hfraction : 2 ≤ f.fraction) (h : f.IsNearest (a + b) s)
    (ha : f.IsNumber a) (hb : f.IsNumber b) (hle : |a| ≤ |b|) (hne : s ≠ a + b)
    (hd : f.IsNearest (s - a) d) : f.SmallerFirst a b s d := by
  have hsmaller : |a| ≤ |s| := by
    by_contra hlt
    have hsum : |a + b| ≤ |a| := by
      by_contra hgt
      have habs : f.IsNumber |a| := by
        rcases abs_choice a with hsign | hsign
        · rwa [hsign]
        · rw [hsign]
          exact ha.neg
      exact hlt (h.le_abs_of_le habs (not_le.1 hgt).le)
    have hexact := ha.sub hb.neg (by rwa [sub_neg_eq_add])
      (by rw [sub_neg_eq_add, abs_neg]; exact hsum.trans hle)
    rw [sub_neg_eq_add] at hexact
    exact hne (h.eq_of_isNumber hexact)
  rw [sub_eq_add_neg] at hd
  have hsecond : a - (s - d) = d - (s + -a) := by ring
  -- The second error is no larger than the first: the other operand is a number, too.
  have hfirst : |d - (s + -a)| ≤ |s - (a + b)| := by
    have hle := hd.le b hb
    rwa [abs_sub_comm b, show s + -a - b = s - (a + b) by ring] at hle
  have hrest : |b - d| ≤ 2 * |s - (a + b)| := by
    have htriangle := abs_add_le (s - (a + b)) (d - (s + -a))
    rw [show s - (a + b) + (d - (s + -a)) = -(b - d) by ring, abs_neg] at htriangle
    linarith
  have hsmall := h.four_mul_error_le hfraction ha hb hle
  have hback : |b| ≤ |b - d| + |d| := by
    have htriangle := abs_add_le (b - d) d
    rwa [sub_add_cancel] at htriangle
  have hdlarge : |b - d| ≤ |d| := by linarith
  have hblarge : |b - d| ≤ |b| := by
    have := abs_nonneg (b - d)
    linarith
  refine ⟨?_, ?_, hb.sub hd.isNumber hblarge hdlarge, hsmaller, ?_, hblarge⟩
  · have hlarger := hd.isNumber_sub_larger h.isNumber ha.neg (by rwa [abs_neg])
    have hflip := hlarger.neg
    rwa [neg_sub] at hflip
  · rw [hsecond]
    exact hd.isNumber_error h.isNumber ha.neg
  · rw [hsecond, ← abs_neg a]
    exact hd.error_le_right h.isNumber

/-- Half of the range is enough for the smaller operand. -/
theorem IsNearest.two_mul_smaller_lt (h : f.IsNearest (a + b) s) (hle : |a| ≤ |b|)
    (hsmaller : |a| ≤ |s|) (hsum : |a + b| < f.overflow) (hdifference : |s - a| < f.overflow) :
    2 * |a| < f.overflow := by
  rcases le_total 0 a with ha | ha <;> rcases le_total 0 b with hb | hb
  · rw [abs_of_nonneg (add_nonneg ha hb)] at hsum
    rw [abs_of_nonneg ha, abs_of_nonneg hb] at *
    linarith
  · -- With different signs, the sum and the first operand have different signs, too.
    rw [abs_of_nonneg ha, abs_of_nonpos hb] at *
    have hs := h.le_of_le .zero (by linarith)
    rw [abs_of_nonpos hs] at hsmaller
    rw [abs_of_nonpos (by linarith)] at hdifference
    linarith
  · rw [abs_of_nonpos ha, abs_of_nonneg hb] at *
    have hs := h.ge_of_ge .zero (by linarith)
    rw [abs_of_nonneg hs] at hsmaller
    rw [abs_of_nonneg (by linarith)] at hdifference
    linarith
  · rw [abs_of_nonpos (add_nonpos ha hb)] at hsum
    rw [abs_of_nonpos ha, abs_of_nonpos hb] at *
    linarith

/-- If the difference does not overflow, nothing after it is rounded. -/
theorem IsNearest.steps_representable (hfraction : 2 ≤ f.fraction) (h : f.IsNearest (a + b) s)
    (hd : f.IsNearest (s - a) d) (ha : f.Representable a) (hb : f.Representable b)
    (hsum : |a + b| < f.overflow) (hdifference : |s - a| < f.overflow) :
    f.Representable (s - d) ∧ f.Representable (a - (s - d)) ∧ f.Representable (b - d) := by
  by_cases hlarger : f.IsNumber (s - a)
  · obtain rfl := hd.eq_of_isNumber hlarger
    have herror : b - (s - a) = -(s - (a + b)) := by ring
    rw [sub_sub_cancel, sub_self, herror]
    refine ⟨ha, ⟨.zero, ?_⟩, (h.isNumber_error ha.1 hb.1).neg, ?_⟩
    · rw [abs_zero]
      exact (abs_nonneg a).trans_lt ha.2
    · rw [abs_neg]
      exact (h.error_le_left hb.1).trans_lt ha.2
  · have hle : |a| ≤ |b| := by
      by_contra hlt
      exact hlarger (h.isNumber_sub_larger ha.1 hb.1 (not_le.1 hlt).le)
    have hne : s ≠ a + b := by
      rintro rfl
      rw [add_sub_cancel_left] at hlarger
      exact hlarger hb.1
    have hsteps := h.smallerFirst hfraction ha.1 hb.1 hle hne hd
    have htwice := h.two_mul_smaller_lt hle hsteps.smaller_le hsum hdifference
    have hback : |s - d| ≤ 2 * |a| := by
      have htriangle := abs_sub a (a - (s - d))
      rw [sub_sub_cancel] at htriangle
      linarith [hsteps.second_le]
    exact ⟨⟨hsteps.isNumber_sub, hback.trans_lt htwice⟩,
      ⟨hsteps.isNumber_second, hsteps.second_le.trans_lt ha.2⟩,
      ⟨hsteps.isNumber_rest, hsteps.rest_le.trans_lt hb.2⟩⟩

/-! ## The steps as operations -/

variable {x y : BitVec w}

theorem RoundsTo.isNearest (h : f.RoundsTo q x) (hx : f.isFinite x = true) :
    f.IsNearest q (f.toRat x) := by
  have hnear := h.isNearestKey hx
  rw [f.toRat_eq_ofKey hx]
  refine ⟨⟨_, rfl⟩, ?_⟩
  rintro _ ⟨n, rfl⟩
  exact hnear.nearest n

/-- A number that has a pattern is not rounded. -/
theorem RoundsTo.exact (hfraction : 0 < f.fraction) (h : f.RoundsTo q x) (hq : f.Representable q) :
    f.isFinite x = true ∧ f.toRat x = q := by
  have hx := (h.isFinite_iff hfraction).2 hq.2
  obtain ⟨n, hn⟩ := hq.1
  exact ⟨hx, h.toRat_eq hx hn⟩

theorem Representable.ofToRat (hx : f.isFinite x = true) : f.Representable (f.toRat x) :=
  ⟨.ofToRat hx, (abs_toRat_le_largest hx).trans_lt largest_lt_overflow⟩

end FloatFormat

open FloatFormat

/-- If no step after the difference rounds, the last one gives the error. -/
theorem twoSum_of_exact_steps {x y d : Double} (hd : d = binary64.sub (binary64.add x y) x)
    (hx : binary64.isFinite x = true) (hy : binary64.isFinite y = true)
    (hsum : binary64.isFinite (binary64.add x y) = true) (hdfinite : binary64.isFinite d = true)
    (hback : binary64.Representable (binary64.toRat (binary64.add x y) - binary64.toRat d))
    (hfirst : binary64.Representable
      (binary64.toRat x - (binary64.toRat (binary64.add x y) - binary64.toRat d)))
    (hsecond : binary64.Representable (binary64.toRat y - binary64.toRat d))
    (herror : binary64.Representable
      (binary64.toRat x + binary64.toRat y - binary64.toRat (binary64.add x y))) :
    binary64.isFinite (twoSum x y).2 = true ∧
      binary64.toRat (twoSum x y).2 =
        binary64.toRat x + binary64.toRat y - binary64.toRat (binary64.add x y) := by
  have hfraction : 0 < binary64.fraction := by decide
  obtain ⟨hbackFinite, hbackValue⟩ := (sub_roundsTo hfraction hsum hdfinite).exact hfraction hback
  rw [← hbackValue] at hfirst
  obtain ⟨hfirstFinite, hfirstValue⟩ :=
    (sub_roundsTo hfraction hx hbackFinite).exact hfraction hfirst
  obtain ⟨hsecondFinite, hsecondValue⟩ :=
    (sub_roundsTo hfraction hy hdfinite).exact hfraction hsecond
  have hround := add_roundsTo hfraction hfirstFinite hsecondFinite
  have hvalue : binary64.toRat (binary64.sub x (binary64.sub (binary64.add x y) d)) +
      binary64.toRat (binary64.sub y d) =
        binary64.toRat x + binary64.toRat y - binary64.toRat (binary64.add x y) := by
    rw [hfirstValue, hbackValue, hsecondValue]
    ring
  rw [hvalue] at hround
  subst hd
  exact hround.exact hfraction herror

/-- The second number that is found for a sum is exactly what the first one lacks. -/
theorem twoSum_spec {x y : Double} (hx : binary64.isFinite x = true)
    (hy : binary64.isFinite y = true) (hsum : binary64.isFinite (binary64.add x y) = true)
    (hdifference : |binary64.toRat (binary64.add x y) - binary64.toRat x| < binary64.overflow) :
    binary64.isFinite (twoSum x y).2 = true ∧
      binary64.toRat (twoSum x y).2 =
        binary64.toRat x + binary64.toRat y - binary64.toRat (binary64.add x y) := by
  have hfraction : 0 < binary64.fraction := by decide
  have hround := add_roundsTo hfraction hx hy
  have hdround := sub_roundsTo hfraction hsum hx
  have hdfinite := (hdround.isFinite_iff hfraction).2 hdifference
  have hnear := hround.isNearest hsum
  have hrx := Representable.ofToRat hx
  have hry := Representable.ofToRat hy
  obtain ⟨hback, hfirst, hsecond⟩ := hnear.steps_representable (by decide)
    (hdround.isNearest hdfinite) hrx hry ((hround.isFinite_iff hfraction).1 hsum) hdifference
  have herror : binary64.Representable
      (binary64.toRat x + binary64.toRat y - binary64.toRat (binary64.add x y)) := by
    rw [← neg_sub]
    refine ⟨(hnear.isNumber_error hrx.1 hry.1).neg, ?_⟩
    rw [abs_neg]
    exact (hnear.error_le_left hry.1).trans_lt hrx.2
  exact twoSum_of_exact_steps rfl hx hy hsum hdfinite hback hfirst hsecond herror

end I860
