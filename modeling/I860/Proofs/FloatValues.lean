import I860.Float.Order
import Mathlib.Algebra.Order.Field.Power
import Mathlib.Algebra.Order.SuccPred
import Mathlib.Data.Int.ConditionallyCompleteOrder
import Mathlib.Data.Rat.Floor
import Mathlib.Order.WithBotTop
import Mathlib.Tactic.Linarith
import Mathlib.Tactic.Positivity
import Mathlib.Tactic.Ring

/-!
# The numbers that bit patterns stand for

A finite pattern stands for a rational number, and infinities are put below and
above all of these. What makes the patterns of a format easy to reason about is
that they are numbered: the key of a pattern counts from zero, and the next key
belongs to the next number (`units_lt_succ`). So the order of numbers is the order of
keys (`toRat_lt_iff`, `extOfKey_strictMono`), and there is nothing between two
neighbours.

The numbering goes on past the largest finite number as if exponents had no end.
`ofKey` reads any integer as a number in this sense, and a format has a pattern for
those whose magnitude is below that of infinity. Rounding is stated with `ofKey`,
and overflow is then only a matter of comparing keys.
-/

namespace I860

/-- The rational numbers with an infinity at either end. -/
abbrev ExtRat := WithBotTop ℚ

namespace FloatValue

/-- The number that a finite value stands for. -/
def toRat : FloatValue → ℚ
  | .finite negative significand scale => (if negative then -1 else 1) * significand * 2 ^ scale
  | _ => 0

/-- What a value stands for among the numbers and infinities; a NaN stands for nothing. -/
def extended? : FloatValue → Option ExtRat
  | .nan _ _ => none
  | .infinite negative => some (if negative then ⊥ else ⊤)
  | .finite negative significand scale => some (toRat (.finite negative significand scale))

end FloatValue

namespace FloatFormat

variable {w : Nat} (f : FloatFormat w)

def toRat (x : BitVec w) : ℚ := (f.decode x).toRat

def value? (x : BitVec w) : Option ExtRat := (f.decode x).extended?

/-- The least positive number of a format. -/
def least : ℚ := 2 ^ f.leastScale

/-- How often the least positive number goes into the number with a magnitude. -/
def units (k : Nat) : Nat :=
  if k < 2 ^ f.fraction then k
  else (2 ^ f.fraction + k % 2 ^ f.fraction) * 2 ^ (k / 2 ^ f.fraction - 1)

/-- The number with a key, if exponents had no end. -/
def ofKey : Int → ℚ
  | .ofNat k => f.units k * f.least
  | .negSucc k => -(f.units (k + 1) * f.least)

/-- The number or infinity with a key. -/
def extOfKey (n : Int) : ExtRat :=
  if n ≤ -f.infinityBits then ⊥ else if f.infinityBits ≤ n then ⊤ else (f.ofKey n : ExtRat)

/-! ## Counting numbers -/

theorem least_pos : 0 < f.least := zpow_pos two_pos _

theorem units_of_lt {k : Nat} (h : k < 2 ^ f.fraction) : f.units k = k := if_pos h

/-- The number with a magnitude, by its exponent field and its fraction. -/
theorem units_fields (g : Nat) {r : Nat} (hr : r < 2 ^ f.fraction) :
    f.units (2 ^ f.fraction * (g + 1) + r) = (2 ^ f.fraction + r) * 2 ^ g := by
  have hpos : 0 < 2 ^ f.fraction := Nat.two_pow_pos _
  have hlarge : ¬2 ^ f.fraction * (g + 1) + r < 2 ^ f.fraction := by
    rw [Nat.mul_succ]
    omega
  rw [units, if_neg hlarge, Nat.mul_add_mod, Nat.mod_eq_of_lt hr, Nat.mul_add_div hpos,
    Nat.div_eq_of_lt hr, Nat.add_zero, Nat.add_sub_cancel]

/-- Every magnitude has its field and its fraction, or is a fraction only. -/
theorem lt_or_exists_fields (k : Nat) :
    k < 2 ^ f.fraction ∨
      ∃ g r, r < 2 ^ f.fraction ∧ k = 2 ^ f.fraction * (g + 1) + r := by
  rcases Nat.lt_or_ge k (2 ^ f.fraction) with h | h
  · exact .inl h
  · have hfield : 0 < k / 2 ^ f.fraction := Nat.div_pos h (Nat.two_pow_pos _)
    refine .inr ⟨k / 2 ^ f.fraction - 1, k % 2 ^ f.fraction,
      Nat.mod_lt _ (Nat.two_pow_pos _), ?_⟩
    rw [Nat.sub_add_cancel hfield]
    exact (Nat.div_add_mod k _).symm

theorem units_lt_succ (k : Nat) : f.units k < f.units (k + 1) := by
  rcases f.lt_or_exists_fields k with hk | ⟨g, r, hr, rfl⟩
  · rw [f.units_of_lt hk]
    rcases Nat.lt_or_ge (k + 1) (2 ^ f.fraction) with hnext | hnext
    · rw [f.units_of_lt hnext]
      exact Nat.lt_succ_self k
    · have hfirst : k + 1 = 2 ^ f.fraction * (0 + 1) + 0 := by omega
      rw [hfirst, f.units_fields 0 (Nat.two_pow_pos _)]
      omega
  · rw [f.units_fields g hr]
    have hgap : 0 < 2 ^ g := Nat.two_pow_pos _
    rcases Nat.lt_or_ge (r + 1) (2 ^ f.fraction) with hnext | hnext
    · rw [Nat.add_assoc, f.units_fields g hnext]
      exact Nat.mul_lt_mul_of_pos_right (by omega) hgap
    · -- The fraction is full, and the next number is the first of the next field.
      have hcarry : 2 ^ f.fraction * (g + 1) + r + 1 = 2 ^ f.fraction * (g + 1 + 1) + 0 := by
        rw [Nat.mul_succ _ (g + 1)]
        omega
      rw [hcarry, f.units_fields (g + 1) (Nat.two_pow_pos _), Nat.pow_succ, Nat.mul_comm (2 ^ g),
        ← Nat.mul_assoc]
      exact Nat.mul_lt_mul_of_pos_right (by omega) hgap

theorem units_strictMono : StrictMono f.units := strictMono_nat_of_lt_succ f.units_lt_succ

@[simp] theorem ofKey_natCast (k : Nat) : f.ofKey k = f.units k * f.least := rfl

@[simp] theorem ofKey_zero : f.ofKey 0 = 0 := by
  have hzero : f.units 0 = 0 := f.units_of_lt (Nat.two_pow_pos _)
  show (f.units 0 : ℚ) * f.least = 0
  rw [hzero, Nat.cast_zero, zero_mul]

theorem ofKey_neg (n : Int) : f.ofKey (-n) = -f.ofKey n := by
  cases n with
  | ofNat k =>
      cases k with
      | zero =>
          show f.ofKey 0 = -f.ofKey 0
          rw [ofKey_zero, neg_zero]
      | succ k => rfl
  | negSucc k => exact (neg_neg _).symm

theorem ofKey_lt_succ (n : Int) : f.ofKey n < f.ofKey (n + 1) := by
  have hstep : ∀ k : Nat, f.units k * f.least < f.units (k + 1) * f.least := fun k =>
    mul_lt_mul_of_pos_right (by exact_mod_cast f.units_lt_succ k) f.least_pos
  cases n with
  | ofNat k => exact hstep k
  | negSucc k =>
      have hnext : Int.negSucc k + 1 = -(k : Int) := by omega
      rw [hnext, ofKey_neg]
      exact neg_lt_neg (hstep k)

theorem ofKey_strictMono : StrictMono f.ofKey := strictMono_int_of_lt_succ f.ofKey_lt_succ

/-! ## Signs and magnitudes -/

theorem infinityBits_lt : f.infinityBits < 2 ^ (f.exponent + f.fraction) := by
  have hpos : 0 < 2 ^ f.exponent := Nat.two_pow_pos _
  rw [infinityBits, topField, Nat.pow_add]
  exact Nat.mul_lt_mul_of_pos_right (by omega) (Nat.two_pow_pos _)

theorem infinityBits_pos [NeZero f.exponent] : 0 < f.infinityBits := by
  have htop : 2 ≤ 2 ^ f.exponent :=
    Nat.pow_le_pow_right (n := 2) (by decide) (Nat.pos_of_neZero f.exponent)
  exact Nat.mul_pos (by rw [topField]; omega) (Nat.two_pow_pos _)

theorem two_pow_width : 2 ^ w = 2 * 2 ^ (f.exponent + f.fraction) := by
  have hwidth : w = f.exponent + f.fraction + 1 := f.width_eq.trans (by omega)
  exact (congrArg (2 ^ ·) hwidth).trans (Nat.pow_succ')

theorem magnitude_lt (x : BitVec w) : f.magnitude x < 2 ^ (f.exponent + f.fraction) :=
  Nat.mod_lt _ (Nat.two_pow_pos _)

/-- A pattern is its sign bit and its magnitude. -/
theorem toNat_eq (x : BitVec w) :
    x.toNat = 2 ^ (f.exponent + f.fraction) * (f.isNegative x).toNat + f.magnitude x := by
  have hlt : x.toNat < 2 ^ (f.exponent + f.fraction) * 2 := by
    rw [Nat.mul_comm, ← f.two_pow_width]
    exact x.isLt
  have hsign : x.toNat / 2 ^ (f.exponent + f.fraction) = (f.isNegative x).toNat := by
    rw [isNegative, Nat.testBit_eq_decide_div_mod_eq,
      Nat.mod_eq_of_lt (Nat.div_lt_of_lt_mul hlt)]
    rcases Nat.lt_or_ge (x.toNat / 2 ^ (f.exponent + f.fraction)) 1 with h | h
    · rw [Nat.lt_one_iff.1 h]
      rfl
    · have hone : x.toNat / 2 ^ (f.exponent + f.fraction) = 1 :=
        Nat.le_antisymm (Nat.le_of_lt_succ (Nat.div_lt_of_lt_mul hlt)) h
      rw [hone]
      rfl
  rw [← hsign]
  exact (Nat.div_add_mod _ _).symm

theorem sign_magnitude_of_toNat {x : BitVec w} {negative : Bool} {k : Nat}
    (hk : k < 2 ^ (f.exponent + f.fraction))
    (h : x.toNat = 2 ^ (f.exponent + f.fraction) * negative.toNat + k) :
    f.isNegative x = negative ∧ f.magnitude x = k := by
  refine ⟨?_, by rw [magnitude, h, Nat.mul_add_mod, Nat.mod_eq_of_lt hk]⟩
  rw [isNegative, Nat.testBit_eq_decide_div_mod_eq, h, Nat.mul_add_div (Nat.two_pow_pos _),
    Nat.div_eq_of_lt hk]
  cases negative <;> rfl

theorem toNat_signBit : (f.signBit : BitVec w).toNat = 2 ^ (f.exponent + f.fraction) := by
  have hpos : 0 < 2 ^ (f.exponent + f.fraction) := Nat.two_pow_pos _
  rw [signBit, BitVec.toNat_ofNat, Nat.mod_eq_of_lt]
  rw [f.two_pow_width]
  omega

theorem sign_magnitude_ofMagnitude (negative : Bool) {k : Nat} (hk : k ≤ f.infinityBits) :
    f.isNegative (f.ofMagnitude negative k : BitVec w) = negative ∧
      f.magnitude (f.ofMagnitude negative k : BitVec w) = k := by
  have hlt : k < 2 ^ (f.exponent + f.fraction) := Nat.lt_of_le_of_lt hk f.infinityBits_lt
  have hwidth : k < 2 ^ w := by
    rw [f.two_pow_width]
    omega
  apply f.sign_magnitude_of_toNat hlt
  rw [ofMagnitude, BitVec.toNat_or, BitVec.toNat_ofNat, Nat.mod_eq_of_lt hwidth, Nat.or_comm]
  cases negative with
  | false => simp
  | true => rw [if_pos rfl, toNat_signBit, Bool.toNat_true, Nat.two_pow_add_eq_or_of_lt hlt,
      Nat.mul_one]

theorem sign_magnitude_negate (x : BitVec w) :
    f.isNegative (f.negate x) = !f.isNegative x ∧ f.magnitude (f.negate x) = f.magnitude x := by
  constructor
  · rw [isNegative, isNegative, negate, BitVec.toNat_xor, toNat_signBit, Nat.testBit_xor,
      Nat.testBit_two_pow_self, Bool.xor_true]
  · rw [magnitude, magnitude, negate, BitVec.toNat_xor, toNat_signBit, Nat.xor_mod_two_pow,
      Nat.mod_self, Nat.xor_zero]

theorem sign_magnitude_absolute (x : BitVec w) :
    f.isNegative (f.absolute x) = false ∧ f.magnitude (f.absolute x) = f.magnitude x := by
  have hbit : ∀ i, (f.absolute x).toNat.testBit i =
      (x.toNat.testBit i && !decide (f.exponent + f.fraction = i)) := by
    intro i
    rw [absolute, BitVec.toNat_and, Nat.testBit_and, BitVec.testBit_toNat (~~~f.signBit),
      BitVec.getLsbD_not, ← BitVec.testBit_toNat f.signBit, toNat_signBit, Nat.testBit_two_pow]
    by_cases hi : i < w
    · rw [decide_eq_true hi, Bool.true_and]
    · rw [BitVec.testBit_toNat, BitVec.getLsbD_of_ge x i (Nat.le_of_not_lt hi), Bool.false_and,
        Bool.false_and]
  constructor
  · rw [isNegative, hbit, decide_eq_true rfl, Bool.not_true, Bool.and_false]
  · apply Nat.eq_of_testBit_eq
    intro i
    rw [magnitude, magnitude, Nat.testBit_mod_two_pow, Nat.testBit_mod_two_pow, hbit]
    by_cases hi : i < f.exponent + f.fraction
    · rw [decide_eq_false (Nat.ne_of_gt hi), Bool.not_false, Bool.and_true]
    · rw [decide_eq_false hi, Bool.false_and, Bool.false_and]

/-! ## Keys -/

variable {f} in
theorem key_of_sign_magnitude {x : BitVec w} {negative : Bool} {k : Nat}
    (h : f.isNegative x = negative ∧ f.magnitude x = k) :
    f.key x = if negative then -(k : Int) else k := by
  rw [key, h.1, h.2]

theorem key_negate (x : BitVec w) : f.key (f.negate x) = -f.key x := by
  rw [key_of_sign_magnitude (f.sign_magnitude_negate x), key]
  cases f.isNegative x with
  | false => rfl
  | true => exact (neg_neg _).symm

theorem key_absolute (x : BitVec w) : f.key (f.absolute x) = |f.key x| := by
  rw [key_of_sign_magnitude (f.sign_magnitude_absolute x), key]
  cases f.isNegative x with
  | false => exact (abs_of_nonneg (Int.natCast_nonneg _)).symm
  | true => exact (abs_neg _ |>.trans (abs_of_nonneg (Int.natCast_nonneg _))).symm

theorem natAbs_key (x : BitVec w) : (f.key x).natAbs = f.magnitude x := by
  rw [key]
  split
  · rw [Int.natAbs_neg, Int.natAbs_natCast]
  · exact Int.natAbs_natCast _

theorem isFinite_iff (x : BitVec w) : f.isFinite x = true ↔ |f.key x| < f.infinityBits := by
  rw [isFinite, decide_eq_true_iff, Int.abs_eq_natAbs, natAbs_key, Int.ofNat_lt]

theorem isNan_eq_false_iff (x : BitVec w) : f.isNan x = false ↔ |f.key x| ≤ f.infinityBits := by
  rw [isNan, decide_eq_false_iff_not, Nat.not_lt, Int.abs_eq_natAbs, natAbs_key, Int.ofNat_le]

theorem isNan_of_isFinite {x : BitVec w} (h : f.isFinite x = true) : f.isNan x = false :=
  (f.isNan_eq_false_iff x).2 (le_of_lt ((f.isFinite_iff x).1 h))

theorem toNat_one [NeZero f.exponent] : (1#w).toNat = 1 := by
  have hbits := f.infinityBits_lt
  have hpos := f.infinityBits_pos
  have hwidth := f.two_pow_width
  rw [BitVec.toNat_ofNat]
  exact Nat.mod_eq_of_lt (by omega)

theorem key_one [NeZero f.exponent] : f.key (1#w) = 1 := by
  have hbits := f.infinityBits_lt
  have hpos := f.infinityBits_pos
  have hfirst : (1#w).toNat = 2 ^ (f.exponent + f.fraction) * false.toNat + 1 := by
    rw [f.toNat_one, Bool.toNat_false, Nat.mul_zero]
  exact key_of_sign_magnitude (f.sign_magnitude_of_toNat (by omega) hfirst)

/-- Only the pattern of infinity has the key of infinity. -/
theorem eq_infinity_iff [NeZero f.exponent] {x : BitVec w} :
    x = BitVec.ofNat w f.infinityBits ↔ f.key x = f.infinityBits := by
  have hpos := f.infinityBits_pos
  have hbits := f.infinityBits_lt
  have hwidth := f.two_pow_width
  constructor
  · rintro rfl
    have htop : (BitVec.ofNat w f.infinityBits).toNat =
        2 ^ (f.exponent + f.fraction) * false.toNat + f.infinityBits := by
      rw [BitVec.toNat_ofNat, Nat.mod_eq_of_lt (by omega), Bool.toNat_false, Nat.mul_zero,
        Nat.zero_add]
    exact key_of_sign_magnitude (f.sign_magnitude_of_toNat hbits htop)
  · intro h
    have hsign : f.isNegative x = false := by
      by_contra hneg
      rw [key, if_pos (Bool.of_not_eq_false hneg)] at h
      omega
    have hmagnitude : f.magnitude x = f.infinityBits := by
      rw [← natAbs_key, h, Int.natAbs_natCast]
    have hx := f.toNat_eq x
    rw [hsign, hmagnitude, Bool.toNat_false, Nat.mul_zero, Nat.zero_add] at hx
    rw [← hx, BitVec.ofNat_toNat, BitVec.setWidth_eq]

/-- The neighbour above has the next key. -/
theorem key_nextUp [NeZero f.exponent] {x : BitVec w} (hnan : f.isNan x = false)
    (hinf : f.key x ≠ f.infinityBits) : f.key (f.nextUp x) = f.key x + 1 := by
  have hbits := f.infinityBits_lt
  have hwidth := f.two_pow_width
  have hle : f.magnitude x ≤ f.infinityBits := by
    rw [isNan, decide_eq_false_iff_not] at hnan
    exact Nat.le_of_not_lt hnan
  have hone := f.toNat_one
  have hx := f.toNat_eq x
  have hxlt := x.isLt
  have hne : (x == BitVec.ofNat w f.infinityBits) = false :=
    beq_eq_false_iff_ne.2 fun h => hinf (f.eq_infinity_iff.1 h)
  rw [nextUp, hnan, hne, Bool.or_false, if_neg Bool.false_ne_true]
  by_cases hzero : f.magnitude x = 0
  · have hkey : f.key x = 0 := by
      rw [key, hzero]
      exact ite_self _
    rw [if_pos (by rw [isZero, hzero]; rfl), f.key_one, hkey]
    rfl
  · rw [if_neg (by rw [isZero, beq_iff_eq]; exact hzero)]
    cases hsign : f.isNegative x with
    | true =>
        rw [hsign, Bool.toNat_true, Nat.mul_one] at hx
        have hnext : (x - 1#w).toNat =
            2 ^ (f.exponent + f.fraction) * true.toNat + (f.magnitude x - 1) := by
          rw [BitVec.toNat_sub, hone, Bool.toNat_true, Nat.mul_one]
          have hwrap : 2 ^ w - 1 + x.toNat = x.toNat - 1 + 2 ^ w := by omega
          rw [hwrap, Nat.add_mod_right, Nat.mod_eq_of_lt (by omega)]
          omega
        rw [if_pos rfl, key_of_sign_magnitude (f.sign_magnitude_of_toNat (by omega) hnext), key,
          hsign, if_pos rfl, if_pos rfl]
        omega
    | false =>
        rw [hsign, Bool.toNat_false, Nat.mul_zero, Nat.zero_add] at hx
        have hbelow : f.magnitude x ≠ f.infinityBits := fun h => hinf (by
          rw [key, hsign, h]
          rfl)
        have hnext : (x + 1#w).toNat =
            2 ^ (f.exponent + f.fraction) * false.toNat + (f.magnitude x + 1) := by
          rw [BitVec.toNat_add, hone, Bool.toNat_false, Nat.mul_zero, Nat.zero_add, hx]
          exact Nat.mod_eq_of_lt (by omega)
        rw [if_neg Bool.false_ne_true,
          key_of_sign_magnitude (f.sign_magnitude_of_toNat (by omega) hnext), key, hsign,
          if_neg Bool.false_ne_true, if_neg Bool.false_ne_true]
        rfl

/-- The neighbour below has the key before. -/
theorem key_nextDown [NeZero f.exponent] {x : BitVec w} (hnan : f.isNan x = false)
    (hinf : f.key x ≠ -f.infinityBits) : f.key (f.nextDown x) = f.key x - 1 := by
  have hnan' : f.isNan (f.negate x) = false := by
    rw [isNan_eq_false_iff, key_negate, abs_neg]
    exact (f.isNan_eq_false_iff x).1 hnan
  have hinf' : f.key (f.negate x) ≠ f.infinityBits := by
    rw [key_negate]
    omega
  rw [nextDown, key_negate, f.key_nextUp hnan' hinf', key_negate]
  omega

/-! ## Values by keys -/

theorem isZero_iff (x : BitVec w) : f.isZero x = true ↔ f.key x = 0 := by
  rw [isZero, beq_iff_eq, ← natAbs_key, Int.natAbs_eq_zero]

/-- The field and the fraction of a finite number. -/
theorem decode_of_isFinite {x : BitVec w} (h : f.isFinite x = true) :
    ∃ m e, f.decode x = .finite (f.isNegative x) m e ∧
      (m : ℚ) * 2 ^ e = f.units (f.magnitude x) * f.least := by
  have hlt : f.magnitude x < f.topField * 2 ^ f.fraction := of_decide_eq_true h
  have hfield : f.magnitude x / 2 ^ f.fraction ≠ f.topField :=
    Nat.ne_of_lt (Nat.div_lt_of_lt_mul (Nat.mul_comm _ _ ▸ hlt))
  rw [decode, if_neg hfield]
  rcases f.lt_or_exists_fields (f.magnitude x) with hsmall | ⟨g, r, hr, hk⟩
  · rw [if_pos (Nat.div_eq_of_lt hsmall), Nat.mod_eq_of_lt hsmall, f.units_of_lt hsmall]
    exact ⟨_, _, rfl, rfl⟩
  · have hdiv : f.magnitude x / 2 ^ f.fraction = g + 1 := by
      rw [hk, Nat.mul_add_div (Nat.two_pow_pos _), Nat.div_eq_of_lt hr, Nat.add_zero]
    have hmod : f.magnitude x % 2 ^ f.fraction = r := by
      rw [hk, Nat.mul_add_mod, Nat.mod_eq_of_lt hr]
    rw [hdiv, hmod, if_neg (Nat.succ_ne_zero g)]
    refine ⟨_, _, rfl, ?_⟩
    have hscale : f.leastScale + ((g + 1 : Nat) : Int) - 1 = f.leastScale + g := by omega
    rw [hk, f.units_fields g hr, hscale, zpow_add₀ two_ne_zero, zpow_natCast, least]
    push_cast
    ring

theorem decode_infinite {x : BitVec w} (h : f.magnitude x = f.infinityBits) :
    f.decode x = .infinite (f.isNegative x) := by
  have hpos : 0 < 2 ^ f.fraction := Nat.two_pow_pos _
  rw [decode, h, infinityBits, Nat.mul_div_cancel _ hpos, if_pos rfl, Nat.mul_mod_left,
    if_pos rfl]

theorem toRat_eq_ofKey {x : BitVec w} (h : f.isFinite x = true) : f.toRat x = f.ofKey (f.key x) := by
  obtain ⟨m, e, hdecode, hvalue⟩ := f.decode_of_isFinite h
  rw [toRat, hdecode, FloatValue.toRat, mul_assoc, hvalue, key]
  cases f.isNegative x with
  | false => rw [if_neg Bool.false_ne_true, one_mul, if_neg Bool.false_ne_true, ofKey_natCast]
  | true => rw [if_pos rfl, if_pos rfl, ofKey_neg, ofKey_natCast, neg_one_mul]

/-- The order of finite numbers is that of their keys. -/
theorem toRat_lt_iff {x y : BitVec w} (hx : f.isFinite x = true) (hy : f.isFinite y = true) :
    f.toRat x < f.toRat y ↔ f.key x < f.key y := by
  rw [f.toRat_eq_ofKey hx, f.toRat_eq_ofKey hy]
  exact f.ofKey_strictMono.lt_iff_lt

theorem extOfKey_of_lt {n : Int} (h : |n| < f.infinityBits) : f.extOfKey n = f.ofKey n := by
  obtain ⟨hlow, hhigh⟩ := abs_lt.1 h
  rw [extOfKey, if_neg (not_le.2 hlow), if_neg (not_le.2 hhigh)]

theorem extOfKey_infinityBits [NeZero f.exponent] : f.extOfKey f.infinityBits = ⊤ := by
  have hpos := f.infinityBits_pos
  rw [extOfKey, if_neg (by omega), if_pos le_rfl]

theorem extOfKey_neg_infinityBits : f.extOfKey (-f.infinityBits) = ⊥ := if_pos le_rfl

/-- What is no NaN stands for the number or infinity with its key. -/
theorem value?_eq [NeZero f.exponent] {x : BitVec w} (h : f.isNan x = false) :
    f.value? x = some (f.extOfKey (f.key x)) := by
  rcases lt_or_eq_of_le ((f.isNan_eq_false_iff x).1 h) with hlt | htop
  · have hfinite := (f.isFinite_iff x).2 hlt
    obtain ⟨m, e, hdecode, -⟩ := f.decode_of_isFinite hfinite
    rw [f.extOfKey_of_lt hlt, ← f.toRat_eq_ofKey hfinite, value?, toRat, hdecode,
      FloatValue.extended?]
  · have hmagnitude : f.magnitude x = f.infinityBits := by
      rw [Int.abs_eq_natAbs, natAbs_key] at htop
      exact Int.ofNat_inj.1 htop
    rw [value?, f.decode_infinite hmagnitude, FloatValue.extended?, key, hmagnitude]
    cases f.isNegative x with
    | false => rw [if_neg Bool.false_ne_true, if_neg Bool.false_ne_true, extOfKey_infinityBits]
    | true => rw [if_pos rfl, if_pos rfl, extOfKey_neg_infinityBits]

theorem value?_of_isNan {x : BitVec w} (h : f.isNan x = true) : f.value? x = none := by
  have hpos : 0 < 2 ^ f.fraction := Nat.two_pow_pos _
  have hlt : f.topField * 2 ^ f.fraction < f.magnitude x := of_decide_eq_true h
  have hbound := f.magnitude_lt x
  have htop : f.topField + 1 = 2 ^ f.exponent :=
    Nat.sub_add_cancel (Nat.two_pow_pos f.exponent)
  rw [Nat.pow_add, ← htop, Nat.mul_comm] at hbound
  have hfield : f.magnitude x / 2 ^ f.fraction = f.topField :=
    Nat.le_antisymm (Nat.le_of_lt_succ (Nat.div_lt_of_lt_mul hbound))
      ((Nat.le_div_iff_mul_le hpos).2 hlt.le)
  have hfraction : f.magnitude x % 2 ^ f.fraction ≠ 0 := by
    intro hzero
    have hsplit := Nat.div_add_mod (f.magnitude x) (2 ^ f.fraction)
    rw [hfield, hzero, Nat.add_zero, Nat.mul_comm] at hsplit
    omega
  rw [value?, decode, if_pos hfield, if_neg hfraction, FloatValue.extended?]

/-- Whatever a pattern stands for has a key. -/
theorem exists_key_of_value? [NeZero f.exponent] {x : BitVec w} {a : ExtRat}
    (h : f.value? x = some a) : ∃ n : Int, |n| ≤ f.infinityBits ∧ a = f.extOfKey n := by
  cases hnan : f.isNan x with
  | true =>
      rw [f.value?_of_isNan hnan] at h
      cases h
  | false =>
      rw [f.value?_eq hnan] at h
      exact ⟨f.key x, (f.isNan_eq_false_iff x).1 hnan, (Option.some.inj h).symm⟩

/-- The order of numbers and infinities is that of their keys. -/
theorem extOfKey_strictMono {n m : Int} (h : n < m) (hn : -f.infinityBits ≤ n)
    (hm : m ≤ f.infinityBits) : f.extOfKey n < f.extOfKey m := by
  have hbelow : ¬m ≤ -f.infinityBits := by omega
  have habove : ¬(f.infinityBits : Int) ≤ n := by omega
  unfold extOfKey
  rw [if_neg hbelow, if_neg habove]
  split
  · split
    · exact bot_lt_top
    · exact WithBot.bot_lt_coe _
  · split
    · exact WithBot.coe_lt_coe.2 (WithTop.coe_lt_top _)
    · exact WithBotTop.coe_lt_coe.2 (f.ofKey_strictMono h)

end FloatFormat
end I860
