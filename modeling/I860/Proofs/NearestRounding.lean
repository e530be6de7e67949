import I860.Float.Exact
import I860.Proofs.FloatValues

/-!
# Rounding to nearest

Encoding an exact value gives the number nearest to it, and of two equally near
ones the one with the even key. This is stated on keys (`IsNearestKey`), where the
numbers go on past the largest finite one, and encoding then only cuts off at
infinity (`encode_finite`). Two consequences are used over and over: rounding keeps
the order (`IsNearestKey.le_of_le`), and it leaves alone what has a key already
(`IsNearestKey.eq_of_ofKey`).

The proof follows the definition. The value is brought to a grid on which it has at
most one more bit than a fraction, the nearest point of this grid is found as an
integer, and both together are the key. A number that is not on the grid lies below
all of its points that matter.
-/

namespace I860

/-! ## Nearest integers -/

/-- An integer nearest to a rational number, and even if there are two. -/
structure IsNearestInt (t : ℚ) (n : Nat) : Prop where
  near : |(n : ℚ) - t| ≤ 1 / 2
  even : |(n : ℚ) - t| = 1 / 2 → Even n

theorem IsNearestInt.natCast (n : Nat) : IsNearestInt n n := by
  constructor <;> rw [sub_self, abs_zero]
  · norm_num
  · intro h
    norm_num at h

/-- The nearest integer to a quotient, without dividing. -/
theorem isNearestInt_div {n d a : Nat} (hd : 0 < d) (hlow : 2 * n ≤ 2 * (d * a) + d)
    (hhigh : 2 * (d * a) ≤ 2 * n + d)
    (heven : 2 * n = 2 * (d * a) + d ∨ 2 * (d * a) = 2 * n + d → Even a) :
    IsNearestInt ((n : ℚ) / d) a := by
  have hpos : (0 : ℚ) < d := by exact_mod_cast hd
  have hscale : |(a : ℚ) - n / d| * (2 * d) = |(2 * (d * a) : ℚ) - 2 * n| := by
    rw [← abs_of_pos (by positivity : (0 : ℚ) < 2 * d), ← abs_mul]
    congr 1
    field_simp
  have hlow' : (2 * n : ℚ) ≤ 2 * (d * a) + d := by exact_mod_cast hlow
  have hhigh' : (2 * (d * a) : ℚ) ≤ 2 * n + d := by exact_mod_cast hhigh
  constructor
  · have hnear : |(2 * (d * a) : ℚ) - 2 * n| ≤ d := abs_le.2 ⟨by linarith, by linarith⟩
    rw [← hscale] at hnear
    nlinarith
  · intro htie
    rw [htie] at hscale
    apply heven
    rcases abs_choice ((2 * (d * a) : ℚ) - 2 * n) with habs | habs
    · right
      have : (2 * (d * a) : ℚ) = 2 * n + d := by linarith
      exact_mod_cast this
    · left
      have : (2 * n : ℚ) = 2 * (d * a) + d := by linarith
      exact_mod_cast this

theorem divNearestEven_isNearestInt (n : Nat) {d : Nat} (hd : 0 < d) :
    IsNearestInt ((n : ℚ) / d) (divNearestEven n d) := by
  have hsplit := Nat.div_add_mod n d
  have hrest := Nat.mod_lt n hd
  have hsucc : d * (n / d + 1) = d * (n / d) + d := Nat.mul_succ _ _
  unfold divNearestEven
  dsimp only
  split
  · next hup =>
      refine isNearestInt_div hd ?_ ?_ fun htie => Nat.even_iff.2 ?_
      all_goals rw [hsucc] at *
      all_goals omega
  · next hdown =>
      refine isNearestInt_div hd ?_ ?_ fun htie => Nat.even_iff.2 ?_
      all_goals omega

theorem scaleNearestEven_isNearestInt (m : Nat) (k : Int) :
    IsNearestInt ((m : ℚ) * 2 ^ k) (scaleNearestEven m k) := by
  unfold scaleNearestEven
  split
  · next hk =>
      obtain ⟨n, rfl⟩ := Int.eq_ofNat_of_zero_le hk
      have hcast : (m : ℚ) * 2 ^ (n : Int) = ((m * 2 ^ n : Nat) : ℚ) := by
        rw [zpow_natCast]
        push_cast
        rfl
      rw [hcast, Int.toNat_natCast]
      exact .natCast _
  · next hk =>
      have hneg : k = -((-k).toNat : Int) := by omega
      have hcast : (m : ℚ) * 2 ^ k = (m : ℚ) / ((2 ^ (-k).toNat : Nat) : ℚ) := by
        rw [hneg, zpow_neg, zpow_natCast, neg_neg, Int.toNat_natCast]
        push_cast
        rfl
      rw [hcast]
      exact divNearestEven_isNearestInt m (Nat.two_pow_pos _)

namespace IsNearestInt

variable {t : ℚ} {n : Nat}

theorem le_of_ne (h : IsNearestInt t n) {i : Nat} (hi : i ≠ n) : 1 / 2 ≤ |(i : ℚ) - t| := by
  have hgap : (1 : ℚ) ≤ |(i : ℚ) - n| := by
    have hint : (1 : Int) ≤ |(i : Int) - n| := Int.one_le_abs (by omega)
    exact_mod_cast hint
  have htriangle := abs_sub_le (i : ℚ) t n
  have hback : |t - (n : ℚ)| = |(n : ℚ) - t| := abs_sub_comm _ _
  have hnear := h.near
  linarith

theorem nearest (h : IsNearestInt t n) (i : Nat) : |(n : ℚ) - t| ≤ |(i : ℚ) - t| := by
  by_cases hi : i = n
  · rw [hi]
  · exact h.near.trans (h.le_of_ne hi)

theorem even_of_tie (h : IsNearestInt t n) {i : Nat} (hi : i ≠ n)
    (htie : |(i : ℚ) - t| = |(n : ℚ) - t|) : Even n :=
  h.even (le_antisymm h.near (htie ▸ h.le_of_ne hi))

/-- A bound that is an integer itself bounds the nearest integer. -/
theorem le_natCast (h : IsNearestInt t n) {b : Nat} (hb : t ≤ b) : n ≤ b := by
  by_contra hlt
  have hsucc : (b : ℚ) + 1 ≤ n := by exact_mod_cast (by omega : b + 1 ≤ n)
  have hnear := (abs_le.1 h.near).2
  linarith

theorem natCast_le (h : IsNearestInt t n) {b : Nat} (hb : (b : ℚ) ≤ t) : b ≤ n := by
  by_contra hlt
  have hsucc : (n : ℚ) + 1 ≤ b := by exact_mod_cast (by omega : n + 1 ≤ b)
  have hnear := (abs_le.1 h.near).1
  linarith

end IsNearestInt

/-! ## Nearest numbers -/

namespace FloatFormat

variable {w : Nat} (f : FloatFormat w)

/-- A key of a number nearest to a rational one, and even if there are two. -/
structure IsNearestKey (q : ℚ) (n : Int) : Prop where
  nearest : ∀ j, |f.ofKey n - q| ≤ |f.ofKey j - q|
  even_of_tie : ∀ j, j ≠ n → |f.ofKey j - q| = |f.ofKey n - q| → Even n

namespace IsNearestKey

variable {f} {q : ℚ} {n : Int}

/-- Rounding does not pass over a number. -/
theorem le_of_le (h : f.IsNearestKey q n) {j : Int} (hj : f.ofKey j ≤ q) : j ≤ n := by
  by_contra hlt
  have hless : f.ofKey n < f.ofKey j := f.ofKey_strictMono (not_le.1 hlt)
  have hnear := h.nearest j
  rw [abs_of_nonpos (by linarith), abs_of_nonpos (by linarith)] at hnear
  linarith

theorem ge_of_ge (h : f.IsNearestKey q n) {j : Int} (hj : q ≤ f.ofKey j) : n ≤ j := by
  by_contra hlt
  have hless : f.ofKey j < f.ofKey n := f.ofKey_strictMono (not_le.1 hlt)
  have hnear := h.nearest j
  rw [abs_of_nonneg (by linarith), abs_of_nonneg (by linarith)] at hnear
  linarith

/-- A number that has a key is not changed. -/
theorem eq_of_ofKey {j : Int} (h : f.IsNearestKey (f.ofKey j) n) : n = j :=
  le_antisymm (h.ge_of_ge le_rfl) (h.le_of_le le_rfl)

theorem neg (h : f.IsNearestKey q n) : f.IsNearestKey (-q) (-n) := by
  have hflip : ∀ j, |f.ofKey j - -q| = |f.ofKey (-j) - q| := fun j => by
    rw [ofKey_neg, ← abs_neg]
    congr 1
    ring
  constructor
  · intro j
    rw [hflip, hflip, neg_neg]
    exact h.nearest (-j)
  · intro j hj htie
    rw [hflip, hflip, neg_neg] at htie
    exact (h.even_of_tie (-j) (by omega) htie).neg

end IsNearestKey

/-- The point `n` of a grid, where `n` has at most one bit more than a fraction. -/
theorem units_grid {g n : Nat} (hn : n ≤ 2 ^ (f.fraction + 1)) (hg : g = 0 ∨ 2 ^ f.fraction ≤ n) :
    f.units (2 ^ f.fraction * g + n) = n * 2 ^ g := by
  have hpos : 0 < 2 ^ f.fraction := Nat.two_pow_pos _
  have hsucc : 2 ^ (f.fraction + 1) = 2 ^ f.fraction + 2 ^ f.fraction := by
    rw [Nat.pow_succ, Nat.mul_two]
  rcases Nat.lt_or_ge n (2 ^ f.fraction) with hsmall | hlarge
  · obtain rfl : g = 0 := hg.resolve_right (Nat.not_le.2 hsmall)
    rw [Nat.mul_zero, Nat.zero_add, f.units_of_lt hsmall, Nat.pow_zero, Nat.mul_one]
  · rcases Nat.lt_or_eq_of_le hn with hlt | rfl
    · have hfields : 2 ^ f.fraction * g + n =
          2 ^ f.fraction * (g + 1) + (n - 2 ^ f.fraction) := by
        rw [Nat.mul_succ]
        omega
      rw [hfields, f.units_fields g (by omega), Nat.add_sub_cancel' hlarge]
    · have hfields : 2 ^ f.fraction * g + 2 ^ (f.fraction + 1) =
          2 ^ f.fraction * (g + 1 + 1) + 0 := by
        rw [Nat.mul_succ, Nat.mul_succ]
        omega
      rw [hfields, f.units_fields (g + 1) hpos, Nat.add_zero, Nat.pow_succ, Nat.pow_succ,
        Nat.mul_assoc, Nat.mul_comm 2]

/-- From the grid's own numbers on, all numbers are points of the grid. -/
theorem exists_grid_of_le {g j : Nat} (h : g = 0 ∨ 2 ^ f.fraction * (g + 1) ≤ j) :
    ∃ i, f.units j = i * 2 ^ g := by
  rcases h with rfl | h
  · exact ⟨f.units j, by rw [Nat.pow_zero, Nat.mul_one]⟩
  · rcases f.lt_or_exists_fields j with hsmall | ⟨g', r, hr, rfl⟩
    · rw [Nat.mul_succ] at h
      omega
    · have hle : g ≤ g' := by
        by_contra hlt
        have := Nat.mul_le_mul_left (2 ^ f.fraction) (by omega : g' + 1 + 1 ≤ g + 1)
        rw [Nat.mul_succ _ (g' + 1)] at this
        omega
      obtain ⟨d, rfl⟩ := Nat.exists_eq_add_of_le hle
      exact ⟨(2 ^ f.fraction + r) * 2 ^ d, by
        rw [f.units_fields _ hr, Nat.mul_assoc, ← Nat.pow_add, Nat.add_comm d]⟩

/-- A number is a point of the grid, or some point of the grid is nearer. -/
theorem exists_grid_or_nearer {t : ℚ} {g : Nat} (hpos : 0 ≤ t)
    (hg : g = 0 ∨ (2 : ℚ) ^ f.fraction ≤ t) (j : Int) :
    (∃ i : Nat, f.ofKey j = i * (2 ^ g * f.least)) ∨
      ∃ i : Nat, |(i : ℚ) * (2 ^ g * f.least) - t * (2 ^ g * f.least)| <
        |f.ofKey j - t * (2 ^ g * f.least)| := by
  have hunit : (0 : ℚ) < 2 ^ g * f.least := mul_pos (by positivity) f.least_pos
  have hvalue : 0 ≤ t * (2 ^ g * f.least) := mul_nonneg hpos hunit.le
  rcases lt_or_ge j 0 with hneg | hnonneg
  · -- A negative number is farther away than zero.
    have hless : f.ofKey j < 0 := f.ofKey_zero ▸ f.ofKey_strictMono hneg
    refine .inr ⟨0, ?_⟩
    rw [abs_of_nonpos (by push_cast; linarith), abs_of_nonpos (by linarith)]
    push_cast
    linarith
  · obtain ⟨k, rfl⟩ := Int.eq_ofNat_of_zero_le hnonneg
    by_cases hon : g = 0 ∨ 2 ^ f.fraction * (g + 1) ≤ k
    · obtain ⟨i, hi⟩ := f.exists_grid_of_le hon
      refine .inl ⟨i, ?_⟩
      rw [ofKey_natCast, hi]
      push_cast
      ring
    · -- The least number of the grid's own exponent lies between.
      obtain ⟨hgrid, hbelow⟩ := not_or.1 hon
      have hbound := hg.resolve_left hgrid
      have hfirst : f.units (2 ^ f.fraction * (g + 1) + 0) = (2 ^ f.fraction + 0) * 2 ^ g :=
        f.units_fields g (Nat.two_pow_pos _)
      have hless : f.ofKey k < 2 ^ f.fraction * (2 ^ g * f.least) := by
        have hunits := f.units_strictMono (Nat.lt_of_not_le hbelow)
        rw [Nat.add_zero, Nat.add_zero] at hfirst
        rw [hfirst] at hunits
        rw [ofKey_natCast, ← mul_assoc]
        exact mul_lt_mul_of_pos_right (by exact_mod_cast hunits) f.least_pos
      have hle : 2 ^ f.fraction * (2 ^ g * f.least) ≤ t * (2 ^ g * f.least) :=
        mul_le_mul_of_nonneg_right hbound hunit.le
      refine .inr ⟨2 ^ f.fraction, ?_⟩
      push_cast
      rw [abs_of_nonpos (by linarith), abs_of_nonpos (by linarith)]
      linarith

/-- The nearest point of a grid is the nearest number, if the grid is fine enough
and all of its points here are numbers. -/
theorem isNearestKey_grid (hfraction : 0 < f.fraction) {t : ℚ} {g n : Nat}
    (h : IsNearestInt t n) (hpos : 0 ≤ t) (hlt : t < 2 ^ (f.fraction + 1))
    (hg : g = 0 ∨ (2 : ℚ) ^ f.fraction ≤ t) :
    f.IsNearestKey (t * (2 ^ g * f.least)) (2 ^ f.fraction * g + n : Nat) := by
  have hunit : (0 : ℚ) < 2 ^ g * f.least := mul_pos (by positivity) f.least_pos
  have hn : n ≤ 2 ^ (f.fraction + 1) := h.le_natCast (by exact_mod_cast hlt.le)
  have hn' : g = 0 ∨ 2 ^ f.fraction ≤ n :=
    hg.imp_right fun ht => h.natCast_le (by exact_mod_cast ht)
  have hkey : f.ofKey (2 ^ f.fraction * g + n : Nat) = n * (2 ^ g * f.least) := by
    rw [ofKey_natCast, f.units_grid hn hn']
    push_cast
    ring
  have hdistance : ∀ i : Nat, |(i : ℚ) * (2 ^ g * f.least) - t * (2 ^ g * f.least)| =
      |(i : ℚ) - t| * (2 ^ g * f.least) := fun i => by
    rw [← sub_mul, abs_mul, abs_of_pos hunit]
  have hnearest : ∀ i : Nat, |(n : ℚ) * (2 ^ g * f.least) - t * (2 ^ g * f.least)| ≤
      |(i : ℚ) * (2 ^ g * f.least) - t * (2 ^ g * f.least)| := fun i => by
    rw [hdistance, hdistance]
    exact mul_le_mul_of_nonneg_right (h.nearest i) hunit.le
  constructor
  · intro j
    rw [hkey]
    rcases f.exists_grid_or_nearer hpos hg j with ⟨i, hi⟩ | ⟨i, hi⟩
    · rw [hi]
      exact hnearest i
    · exact (hnearest i).trans hi.le
  · intro j hj htie
    rw [hkey] at htie
    rcases f.exists_grid_or_nearer hpos hg j with ⟨i, hi⟩ | ⟨i, hi⟩
    · have hother : i ≠ n := by
        rintro rfl
        exact hj (f.ofKey_strictMono.injective (hi.trans hkey.symm))
      rw [hi, hdistance, hdistance] at htie
      have heven := h.even_of_tie hother (mul_right_cancel₀ hunit.ne' htie)
      have hfields : Even (2 ^ f.fraction * g) :=
        (Nat.even_pow.2 ⟨even_two, hfraction.ne'⟩).mul_right g
      exact (Int.even_coe_nat _).2 (hfields.add heven)
    · exact absurd (hnearest i) (not_le.2 (htie ▸ hi))

/-- The grid that a value is rounded to has room for its fraction, and no finer
grid has, unless the numbers of the format have no smaller scale. -/
theorem gridScale_spec {m : Nat} (hm : m ≠ 0) (e : Int) :
    f.leastScale ≤ f.gridScale m e ∧
      (m : ℚ) * 2 ^ (e - f.gridScale m e) < 2 ^ (f.fraction + 1) ∧
      (f.gridScale m e = f.leastScale ∨
        (2 : ℚ) ^ f.fraction ≤ m * 2 ^ (e - f.gridScale m e)) := by
  have hlow : (2 : ℚ) ^ m.log2 ≤ m := by exact_mod_cast Nat.log2_self_le hm
  have hhigh : (m : ℚ) < 2 ^ (m.log2 + 1) := by exact_mod_cast Nat.lt_log2_self
  refine ⟨le_max_right _ _, ?_, ?_⟩
  · have hscale : e - f.gridScale m e ≤ f.fraction - m.log2 := by
      have := le_max_left (e + m.log2 - f.fraction) f.leastScale
      rw [gridScale]
      omega
    calc (m : ℚ) * 2 ^ (e - f.gridScale m e)
        ≤ m * 2 ^ ((f.fraction : Int) - m.log2) :=
          mul_le_mul_of_nonneg_left (zpow_le_zpow_right₀ one_le_two hscale) (Nat.cast_nonneg m)
      _ < 2 ^ (m.log2 + 1) * 2 ^ ((f.fraction : Int) - m.log2) :=
          mul_lt_mul_of_pos_right hhigh (zpow_pos two_pos _)
      _ = 2 ^ (f.fraction + 1) := by
          rw [← zpow_natCast, ← zpow_natCast, ← zpow_add₀ two_ne_zero]
          congr 1
          omega
  · rcases max_choice (e + m.log2 - f.fraction) f.leastScale with hmax | hmax
    · right
      rw [gridScale, hmax]
      calc (2 : ℚ) ^ f.fraction
          = 2 ^ m.log2 * 2 ^ (e - (e + m.log2 - f.fraction)) := by
            rw [← zpow_natCast, ← zpow_natCast, ← zpow_add₀ two_ne_zero]
            congr 1
            omega
        _ ≤ m * 2 ^ (e - (e + m.log2 - f.fraction)) :=
            mul_le_mul_of_nonneg_right hlow (zpow_pos two_pos _).le
    · exact .inl hmax

/-- A magnitude is rounded to the nearest one, which is cut off at infinity. -/
theorem roundMagnitude_spec (hfraction : 0 < f.fraction) (m : Nat) (e : Int) :
    ∃ k : Nat, f.roundMagnitude m e = min f.infinityBits k ∧
      f.IsNearestKey ((m : ℚ) * 2 ^ e) k := by
  by_cases hm : m = 0
  · subst hm
    refine ⟨0, by rw [roundMagnitude, if_pos rfl, Nat.min_zero], ?_⟩
    have h := f.isNearestKey_grid hfraction (.natCast 0) le_rfl (by positivity) (.inl rfl)
    simpa using h
  · obtain ⟨hgrid, hlt, hfirst⟩ := f.gridScale_spec hm e
    obtain ⟨g, hg⟩ := Int.eq_ofNat_of_zero_le (Int.sub_nonneg.2 hgrid)
    have hround := scaleNearestEven_isNearestInt m (e - f.gridScale m e)
    refine ⟨_, by rw [roundMagnitude, if_neg hm], ?_⟩
    have hvalue : (m : ℚ) * 2 ^ e =
        m * 2 ^ (e - f.gridScale m e) * (2 ^ g * f.least) := by
      rw [mul_assoc, least, ← zpow_natCast, ← zpow_add₀ two_ne_zero, ← zpow_add₀ two_ne_zero]
      congr 2
      omega
    rw [hvalue, hg, Int.toNat_natCast, Nat.mul_comm g]
    exact f.isNearestKey_grid hfraction hround (by positivity) hlt
      (hfirst.imp_left fun h => by omega)

/-- A key, cut off at the infinities. -/
def clamp (n : Int) : Int := max (-f.infinityBits) (min f.infinityBits n)

/-- A finite value is encoded as the number nearest to it, which is cut off at the
infinities. -/
theorem encode_finite (hfraction : 0 < f.fraction) (negative : Bool) (m : Nat) (e : Int) :
    ∃ n, f.IsNearestKey (FloatValue.toRat (.finite negative m e)) n ∧
      f.isNan (f.encode (.finite negative m e)) = false ∧
      f.key (f.encode (.finite negative m e)) = f.clamp n := by
  obtain ⟨k, hround, hnear⟩ := f.roundMagnitude_spec hfraction m e
  have hle : f.roundMagnitude m e ≤ f.infinityBits := hround ▸ Nat.min_le_left _ _
  have hkey := key_of_sign_magnitude (f.sign_magnitude_ofMagnitude negative hle)
  have hnan : f.isNan (f.ofMagnitude negative (f.roundMagnitude m e)) = false := by
    rw [isNan_eq_false_iff, hkey]
    cases negative with
    | false => simpa using hle
    | true => simpa using hle
  have hclamp : f.clamp k = f.roundMagnitude m e := by
    rw [clamp, hround]
    omega
  cases negative with
  | false =>
      refine ⟨k, ?_, hnan, hkey.trans ?_⟩
      · rw [FloatValue.toRat, if_neg Bool.false_ne_true, one_mul]
        exact hnear
      · rw [if_neg Bool.false_ne_true, hclamp]
  | true =>
      refine ⟨-k, ?_, hnan, hkey.trans ?_⟩
      · rw [FloatValue.toRat, if_pos rfl, mul_assoc, neg_one_mul]
        exact hnear.neg
      · rw [if_pos rfl, ← hclamp, clamp, clamp]
        omega

end FloatFormat

end I860
