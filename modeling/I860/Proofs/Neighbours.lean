import I860.Proofs.Narrowing
import Mathlib.Order.Cover

/-!
# Neighbours

A step up or down moves the key of a number by one (`key_nextUp`, `key_nextDown`). This
is turned here into what the step does to the number. Keys and numbers have the same
order, infinities included (`extOfKey_lt_iff`), and each number has a key. So there
can be nothing between the numbers of two consecutive keys (`adjacent_of_key`), and a
step in either direction leads to the next number there is.

From a NaN and from the infinity ahead there is no step, and the pattern comes back bit
for bit. For a step down this is so because it is a step up between two changes of the
sign, and the second of these undoes the first.
-/

namespace I860

namespace FloatFormat

variable {w : Nat} {f : FloatFormat w}

/-! ## The order of numbers and infinities -/

theorem extOfKey_strictMonoOn : StrictMonoOn f.extOfKey {n | |n| ≤ f.infinityBits} := by
  intro n hn m hm h
  exact f.extOfKey_strictMono h (abs_le.1 hn).1 (abs_le.1 hm).2

theorem extOfKey_lt_iff {n m : Int} (hn : |n| ≤ f.infinityBits) (hm : |m| ≤ f.infinityBits) :
    f.extOfKey n < f.extOfKey m ↔ n < m :=
  extOfKey_strictMonoOn.lt_iff_lt hn hm

variable {x y : BitVec w}

/-- A number or infinity has one key. -/
theorem value?_eq_extOfKey_iff [NeZero f.exponent] (h : f.isNan x = false) {n : Int}
    (hn : |n| ≤ f.infinityBits) : f.value? x = some (f.extOfKey n) ↔ f.key x = n := by
  have hkey := (f.isNan_eq_false_iff x).1 h
  rw [f.value?_eq h, Option.some_inj]
  exact extOfKey_strictMonoOn.injOn.eq_iff hkey hn

theorem value?_eq_top_iff [NeZero f.exponent] (h : f.isNan x = false) :
    f.value? x = some ⊤ ↔ f.key x = f.infinityBits := by
  rw [← f.extOfKey_infinityBits, value?_eq_extOfKey_iff h (Nat.abs_cast _).le]

theorem value?_eq_bot_iff [NeZero f.exponent] (h : f.isNan x = false) :
    f.value? x = some ⊥ ↔ f.key x = -f.infinityBits := by
  have hbot : |-(f.infinityBits : Int)| ≤ f.infinityBits := by
    rw [abs_neg]
    exact (Nat.abs_cast _).le
  rw [← f.extOfKey_neg_infinityBits, value?_eq_extOfKey_iff h hbot]

/-! ## Consecutive keys -/

variable (f) in
/-- The second pattern has the key after that of the first, and its number is the one
after the number of the first: none that the format has a pattern for lies strictly
between the two. -/
structure Adjacent (x y : BitVec w) : Prop where
  key_eq : f.key y = f.key x + 1
  covers : ∃ a b : f.values, f.value? x = some ↑a ∧ f.value? y = some ↑b ∧ a ⋖ b

theorem adjacent_of_key [NeZero f.exponent] (hx : f.isNan x = false) (hy : f.isNan y = false)
    (hkey : f.key y = f.key x + 1) : f.Adjacent x y := by
  have hxmem := (f.isNan_eq_false_iff x).1 hx
  have hymem := (f.isNan_eq_false_iff y).1 hy
  have hxvalue := f.value?_eq hx
  have hyvalue := f.value?_eq hy
  refine ⟨hkey, ⟨_, x, hxvalue⟩, ⟨_, y, hyvalue⟩, hxvalue, hyvalue, ?_, ?_⟩
  · show f.extOfKey (f.key x) < f.extOfKey (f.key y)
    rw [extOfKey_lt_iff hxmem hymem]
    omega
  · -- A number in between would have a key between two consecutive integers.
    rintro ⟨c, z, hz⟩ habove hbelow
    obtain ⟨n, hn, rfl⟩ := f.exists_key_of_value? hz
    have hlow : f.key x < n := (extOfKey_lt_iff hxmem hn).1 habove
    have hhigh : n < f.key y := (extOfKey_lt_iff hn hymem).1 hbelow
    omega

/-! ## Where there is no step -/

theorem negate_negate (x : BitVec w) : f.negate (f.negate x) = x := by
  rw [negate, negate, BitVec.xor_assoc, BitVec.xor_self, BitVec.xor_zero]

theorem isNan_negate (x : BitVec w) : f.isNan (f.negate x) = f.isNan x := by
  rw [isNan, isNan, (f.sign_magnitude_negate x).2]

theorem nextUp_of_isNan (h : f.isNan x = true) : f.nextUp x = x := by
  rw [nextUp, h, Bool.true_or, if_pos rfl]

theorem nextUp_of_key [NeZero f.exponent] (h : f.key x = f.infinityBits) : f.nextUp x = x := by
  rw [nextUp, beq_iff_eq.2 (f.eq_infinity_iff.2 h), Bool.or_true, if_pos rfl]

theorem nextDown_of_isNan (h : f.isNan x = true) : f.nextDown x = x := by
  have hstay : f.nextUp (f.negate x) = f.negate x :=
    nextUp_of_isNan ((isNan_negate x).trans h)
  rw [nextDown, hstay, negate_negate]

theorem nextDown_of_key [NeZero f.exponent] (h : f.key x = -f.infinityBits) :
    f.nextDown x = x := by
  have hstay : f.nextUp (f.negate x) = f.negate x := by
    apply nextUp_of_key
    rw [key_negate, h, neg_neg]
  rw [nextDown, hstay, negate_negate]

/-! ## Steps -/

theorem adjacent_nextUp [NeZero f.exponent] (hnan : f.isNan x = false)
    (hinf : f.key x ≠ f.infinityBits) : f.Adjacent x (f.nextUp x) := by
  obtain ⟨hnext, hkey⟩ := nextUp_spec hnan hinf
  exact adjacent_of_key hnan hnext hkey

theorem adjacent_nextDown [NeZero f.exponent] (hnan : f.isNan x = false)
    (hinf : f.key x ≠ -f.infinityBits) : f.Adjacent (f.nextDown x) x := by
  obtain ⟨hnext, hkey⟩ := nextDown_spec hnan hinf
  exact adjacent_of_key hnext hnan (by omega)

variable (f) in
/-- In every format that has exponents, the steps up and down stay at NaNs and at the
infinity ahead, and else lead to the adjacent number. The order of keys, in which it is
adjacent, is the numeric one. -/
theorem neighbours_by_key [NeZero f.exponent] (x : BitVec w) :
    (f.isNan x = true → f.nextUp x = x ∧ f.nextDown x = x) ∧
      (f.isNan x = false →
        (f.value? x = some ⊤ → f.nextUp x = x) ∧
        (f.value? x ≠ some ⊤ → f.Adjacent x (f.nextUp x)) ∧
        (f.value? x = some ⊥ → f.nextDown x = x) ∧
        (f.value? x ≠ some ⊥ → f.Adjacent (f.nextDown x) x) ∧
        ∀ y, f.isNan y = false →
          ∃ a b, f.value? x = some a ∧ f.value? y = some b ∧ (f.key x < f.key y ↔ a < b)) := by
  refine ⟨fun hnan => ⟨nextUp_of_isNan hnan, nextDown_of_isNan hnan⟩, fun hnan => ?_⟩
  rw [ne_eq, ne_eq, value?_eq_top_iff hnan, value?_eq_bot_iff hnan]
  refine ⟨nextUp_of_key, adjacent_nextUp hnan, nextDown_of_key, adjacent_nextDown hnan, ?_⟩
  intro y hy
  have hxmem := (f.isNan_eq_false_iff x).1 hnan
  have hymem := (f.isNan_eq_false_iff y).1 hy
  exact ⟨_, _, f.value?_eq hnan, f.value?_eq hy, (extOfKey_lt_iff hxmem hymem).symm⟩

/-- The negative number nearest to zero is followed by a zero, and the step gives the
negative one. The greatest number of 32 bits comes before infinity. -/
theorem neighbours_by_key_of_extremes :
    (binary64.isNan 0x8000000000000001#64 = false ∧
        binary64.nextUp 0x8000000000000001#64 = 0x8000000000000000#64 ∧
        binary64.Adjacent 0x8000000000000001#64 0x8000000000000000#64) ∧
      binary32.isNan 0x7f800000#32 = false ∧
      binary32.nextDown 0x7f800000#32 = 0x7f7fffff#32 ∧
      binary32.Adjacent 0x7f7fffff#32 0x7f800000#32 := by
  have hnumber : binary64.isNan 0x8000000000000001#64 = false := by decide
  have hinfinity : binary32.isNan 0x7f800000#32 = false := by decide
  have hup : binary64.nextUp 0x8000000000000001#64 = 0x8000000000000000#64 := by decide
  have hdown : binary32.nextDown 0x7f800000#32 = 0x7f7fffff#32 := by decide
  obtain ⟨-, habove, -⟩ := (binary64.neighbours_by_key 0x8000000000000001#64).2 hnumber
  obtain ⟨-, -, -, hbelow, -⟩ := (binary32.neighbours_by_key 0x7f800000#32).2 hinfinity
  rw [hup] at habove
  rw [hdown] at hbelow
  exact ⟨⟨hnumber, hup, habove nofun⟩, hinfinity, hdown, hbelow nofun⟩

end FloatFormat

end I860
