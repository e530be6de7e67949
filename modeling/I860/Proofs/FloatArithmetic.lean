import I860.Proofs.NearestRounding

/-!
# Arithmetic rounds exact results

Sums and products of finite values are exact, and encoding rounds them, so an
operation on finite patterns gives the pattern nearest to the exact result
(`RoundsTo`). It is finite if and only if the exact result stays below the point
half way between the largest finite number and the first one that has no pattern
(`RoundsTo.isFinite_iff`): that point itself goes to the even key, which is
infinity.
-/

namespace I860

namespace FloatValue

/-- A value is a number. -/
def IsFinite (v : FloatValue) : Prop := ∃ negative m e, v = .finite negative m e

theorem ofScaledInt_spec (n scale : Int) (negativeZero : Bool) :
    (ofScaledInt n scale negativeZero).IsFinite ∧
      (ofScaledInt n scale negativeZero).toRat = n * 2 ^ scale := by
  unfold ofScaledInt
  split
  · next hzero =>
      refine ⟨⟨_, _, _, rfl⟩, ?_⟩
      rw [toRat, hzero, Nat.cast_zero, mul_zero, Int.cast_zero]
  · refine ⟨⟨_, _, _, rfl⟩, ?_⟩
    rw [toRat]
    congr 1
    rcases lt_or_ge n 0 with hneg | hnonneg
    · rw [decide_eq_true hneg, if_pos rfl, Nat.cast_natAbs, abs_of_neg hneg]
      push_cast
      ring
    · rw [decide_eq_false (not_lt.2 hnonneg), if_neg Bool.false_ne_true, Nat.cast_natAbs,
        abs_of_nonneg hnonneg, one_mul]

theorem alignedTo_mul {target scale : Int} (h : target ≤ scale) (negative : Bool) (m : Nat) :
    (alignedTo target negative m scale : ℚ) * 2 ^ target = toRat (.finite negative m scale) := by
  have hscale : (2 : ℚ) ^ scale = 2 ^ (scale - target).toNat * 2 ^ target := by
    rw [← zpow_natCast, ← zpow_add₀ two_ne_zero]
    congr 1
    omega
  rw [alignedTo, toRat, hscale]
  cases negative with
  | false =>
      rw [if_neg Bool.false_ne_true, if_neg Bool.false_ne_true]
      push_cast
      ring
  | true =>
      rw [if_pos rfl, if_pos rfl]
      push_cast
      ring

namespace IsFinite

variable {u v : FloatValue}

theorem add (hu : u.IsFinite) (hv : v.IsFinite) :
    (u.add v).IsFinite ∧ (u.add v).toRat = u.toRat + v.toRat := by
  obtain ⟨s, m, e, rfl⟩ := hu
  obtain ⟨t, n, g, rfl⟩ := hv
  obtain ⟨hfinite, hvalue⟩ := ofScaledInt_spec
    (alignedTo (min e g) s m e + alignedTo (min e g) t n g) (min e g) (s && t)
  refine ⟨hfinite, hvalue.trans ?_⟩
  rw [Int.cast_add, add_mul, alignedTo_mul (min_le_left e g), alignedTo_mul (min_le_right e g)]

theorem negate (hv : v.IsFinite) : v.negate.IsFinite ∧ v.negate.toRat = -v.toRat := by
  obtain ⟨s, m, e, rfl⟩ := hv
  refine ⟨⟨_, _, _, rfl⟩, ?_⟩
  rw [FloatValue.negate, toRat, toRat]
  cases s with
  | false => simp
  | true => simp

theorem sub (hu : u.IsFinite) (hv : v.IsFinite) :
    (u.sub v).IsFinite ∧ (u.sub v).toRat = u.toRat - v.toRat := by
  have hsum := hu.add hv.negate.1
  have heq : u.sub v = u.add v.negate := by
    obtain ⟨t, n, g, rfl⟩ := hv
    rfl
  rw [heq, sub_eq_add_neg, ← hv.negate.2]
  exact hsum

theorem mul (hu : u.IsFinite) (hv : v.IsFinite) :
    (u.mul v).IsFinite ∧ (u.mul v).toRat = u.toRat * v.toRat := by
  obtain ⟨s, m, e, rfl⟩ := hu
  obtain ⟨t, n, g, rfl⟩ := hv
  refine ⟨⟨_, _, _, rfl⟩, ?_⟩
  rw [FloatValue.mul, toRat, toRat, toRat, zpow_add₀ two_ne_zero]
  push_cast
  cases s <;> cases t
  all_goals simp
  all_goals ring

end IsFinite

end FloatValue

namespace FloatFormat

variable {w : Nat} (f : FloatFormat w)

/-- A pattern is a number rounded to nearest, to an infinity if it is too large. -/
def RoundsTo (q : ℚ) (x : BitVec w) : Prop :=
  f.isNan x = false ∧ ∃ n, f.IsNearestKey q n ∧ f.key x = f.clamp n

/-- The largest finite number. -/
def largest : ℚ := f.ofKey (f.infinityBits - 1)

/-- Half way from the largest finite number to the next one, if there were one. -/
def overflow : ℚ := (f.largest + f.ofKey f.infinityBits) / 2

variable {f}

theorem decode_isFinite {x : BitVec w} (h : f.isFinite x = true) : (f.decode x).IsFinite := by
  obtain ⟨m, e, hdecode, -⟩ := f.decode_of_isFinite h
  exact ⟨_, _, _, hdecode⟩

theorem key_mem_of_isFinite {x : BitVec w} (h : f.isFinite x = true) :
    -(f.infinityBits : Int) < f.key x ∧ f.key x < f.infinityBits :=
  abs_lt.1 ((f.isFinite_iff x).1 h)

theorem largest_lt_overflow : f.largest < f.overflow := by
  have hnext : f.largest < f.ofKey f.infinityBits := f.ofKey_strictMono (by omega)
  rw [overflow]
  linarith

theorem overflow_lt : f.overflow < f.ofKey f.infinityBits := by
  have hnext : f.largest < f.ofKey f.infinityBits := f.ofKey_strictMono (by omega)
  rw [overflow]
  linarith

theorem abs_ofKey (n : Int) : |f.ofKey n| = f.ofKey |n| := by
  rcases le_total 0 n with h | h
  · rw [abs_of_nonneg h, abs_of_nonneg (f.ofKey_zero ▸ f.ofKey_strictMono.monotone h)]
  · rw [abs_of_nonpos h, abs_of_nonpos (f.ofKey_zero ▸ f.ofKey_strictMono.monotone h), ofKey_neg]

theorem abs_toRat_le_largest {x : BitVec w} (h : f.isFinite x = true) :
    |f.toRat x| ≤ f.largest := by
  have hkey := (f.isFinite_iff x).1 h
  rw [f.toRat_eq_ofKey h, abs_ofKey]
  exact f.ofKey_strictMono.monotone (by omega)

namespace IsNearestKey

variable {q : ℚ} {n : Int}

/-- Below the point of overflow the nearest number has a pattern. -/
theorem lt_infinityBits (h : f.IsNearestKey q n) (hq : q < f.overflow) : n < f.infinityBits := by
  by_contra hge
  have hlarge : f.ofKey f.infinityBits ≤ f.ofKey n := f.ofKey_strictMono.monotone (not_lt.1 hge)
  have hnear := h.nearest (f.infinityBits - 1)
  have hbound := f.overflow_lt
  have hmid : f.overflow = (f.ofKey (f.infinityBits - 1) + f.ofKey f.infinityBits) / 2 := rfl
  rw [abs_of_nonneg (by linarith)] at hnear
  rcases abs_choice (f.ofKey (f.infinityBits - 1) - q) with habs | habs
  · rw [habs] at hnear
    have hstep : f.ofKey (f.infinityBits - 1) < f.ofKey f.infinityBits :=
      f.ofKey_strictMono (by omega)
    linarith
  · rw [habs] at hnear
    linarith

/-- From the point of overflow on it has none: the first key without one is even. -/
theorem infinityBits_le (hfraction : 0 < f.fraction) (h : f.IsNearestKey q n)
    (hq : f.overflow ≤ q) : (f.infinityBits : Int) ≤ n := by
  by_contra hlt
  have hmid : f.overflow = (f.ofKey (f.infinityBits - 1) + f.ofKey f.infinityBits) / 2 := rfl
  have hle : f.ofKey n ≤ f.ofKey (f.infinityBits - 1) :=
    f.ofKey_strictMono.monotone (by omega)
  have hstep : f.ofKey (f.infinityBits - 1) < f.ofKey f.infinityBits :=
    f.ofKey_strictMono (by omega)
  have hnear := h.nearest f.infinityBits
  rcases lt_or_ge (f.ofKey f.infinityBits) q with hbeyond | hwithin
  · have := h.le_of_le hbeyond.le
    omega
  · rw [abs_of_nonpos (by linarith), abs_of_nonneg (by linarith)] at hnear
    have hlast : n = f.infinityBits - 1 := by
      have hequal : f.ofKey n = f.ofKey (f.infinityBits - 1) := by linarith
      exact f.ofKey_strictMono.injective hequal
    have htie : |f.ofKey f.infinityBits - q| = |f.ofKey n - q| := by
      rw [abs_of_nonneg (by linarith), abs_of_nonpos (by linarith), hlast]
      rw [hlast] at hnear
      linarith
    have heven := h.even_of_tie f.infinityBits (by omega) htie
    have htop : Even (f.infinityBits : Int) := by
      rw [Int.even_coe_nat, infinityBits]
      exact (Nat.even_pow.2 ⟨even_two, hfraction.ne'⟩).mul_left _
    rw [hlast, Int.even_sub_one] at heven
    exact heven htop

end IsNearestKey

namespace RoundsTo

variable {q : ℚ} {x : BitVec w}

/-- A finite result is a nearest number without any bound. -/
theorem isNearestKey (h : f.RoundsTo q x) (hx : f.isFinite x = true) :
    f.IsNearestKey q (f.key x) := by
  obtain ⟨-, n, hnear, hkey⟩ := h
  have hmem := key_mem_of_isFinite hx
  have heq : f.key x = n := by
    rw [hkey, clamp] at hmem
    rw [hkey, clamp]
    omega
  rw [heq]
  exact hnear

theorem isFinite_iff (hfraction : 0 < f.fraction) (h : f.RoundsTo q x) :
    f.isFinite x = true ↔ |q| < f.overflow := by
  obtain ⟨-, n, hnear, hkey⟩ := h
  rw [FloatFormat.isFinite_iff, hkey, abs_lt, abs_lt, clamp]
  constructor
  · rintro ⟨hlow, hhigh⟩
    constructor
    · by_contra hle
      have := hnear.neg.infinityBits_le hfraction (by linarith)
      omega
    · by_contra hle
      have := hnear.infinityBits_le hfraction (by linarith)
      omega
  · rintro ⟨hlow, hhigh⟩
    have habove := hnear.lt_infinityBits hhigh
    have hbelow := hnear.neg.lt_infinityBits (by linarith)
    omega

/-- A number that has a pattern is not changed. -/
theorem toRat_eq (h : f.RoundsTo q x) (hx : f.isFinite x = true) {n : Int} (hn : f.ofKey n = q) :
    f.toRat x = q := by
  rw [f.toRat_eq_ofKey hx, ← hn]
  rw [← hn] at h
  exact congrArg f.ofKey (h.isNearestKey hx).eq_of_ofKey

end RoundsTo

theorem encode_roundsTo (hfraction : 0 < f.fraction) {v : FloatValue} (h : v.IsFinite) :
    f.RoundsTo v.toRat (f.encode v) := by
  obtain ⟨s, m, e, rfl⟩ := h
  obtain ⟨n, hnear, hnan, hkey⟩ := f.encode_finite hfraction s m e
  exact ⟨hnan, n, hnear, hkey⟩

section Operations

variable (hfraction : 0 < f.fraction) {x y z : BitVec w} (hx : f.isFinite x = true)
  (hy : f.isFinite y = true) (hz : f.isFinite z = true)

include hfraction hx hy

theorem add_roundsTo : f.RoundsTo (f.toRat x + f.toRat y) (f.add x y) := by
  obtain ⟨hfinite, hvalue⟩ := (decode_isFinite hx).add (decode_isFinite hy)
  rw [toRat, toRat, ← hvalue]
  exact encode_roundsTo hfraction hfinite

theorem sub_roundsTo : f.RoundsTo (f.toRat x - f.toRat y) (f.sub x y) := by
  obtain ⟨hfinite, hvalue⟩ := (decode_isFinite hx).sub (decode_isFinite hy)
  rw [toRat, toRat, ← hvalue]
  exact encode_roundsTo hfraction hfinite

theorem mul_roundsTo : f.RoundsTo (f.toRat x * f.toRat y) (f.mul x y) := by
  obtain ⟨hfinite, hvalue⟩ := (decode_isFinite hx).mul (decode_isFinite hy)
  rw [toRat, toRat, ← hvalue]
  exact encode_roundsTo hfraction hfinite

include hz in
theorem mulAdd_roundsTo : f.RoundsTo (f.toRat x * f.toRat y + f.toRat z) (f.mulAdd x y z) := by
  obtain ⟨hproduct, hproductValue⟩ := (decode_isFinite hx).mul (decode_isFinite hy)
  obtain ⟨hfinite, hvalue⟩ := hproduct.add (decode_isFinite hz)
  rw [toRat, toRat, toRat, ← hproductValue, ← hvalue]
  exact encode_roundsTo hfraction hfinite

end Operations

theorem isFinite_negate {x : BitVec w} (h : f.isFinite x = true) :
    f.isFinite (f.negate x) = true := by
  rw [f.isFinite_iff, key_negate, abs_neg]
  exact (f.isFinite_iff x).1 h

theorem toRat_negate {x : BitVec w} (h : f.isFinite x = true) :
    f.toRat (f.negate x) = -f.toRat x := by
  rw [f.toRat_eq_ofKey (isFinite_negate h), key_negate, ofKey_neg, f.toRat_eq_ofKey h]

end FloatFormat

end I860
