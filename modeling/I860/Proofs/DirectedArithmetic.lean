import I860.Float.Unit
import I860.Proofs.ErrorFree
import I860.Proofs.Narrowing

/-!
# Directed sums and products

Sums and products of 64 bits are rounded to nearest and then moved by the sign of the
error (`adjust_spec`). Those of 32 bits are rounded to nearest in 64 bits and then narrowed
in the mode, which looks at the side of the 64-bit number and not at that of the exact
result.

Both ways give a result on the side that the mode asks for, unless the unit does not get
to see that something was lost (`Arithmetic.LosesError`): the difference in a sum
overflows, the error of a product underflows, or the 64-bit number happens to be one of 32
bits. In these cases, and in no others, there is a mode with a result on the wrong side
(`encloses_iff`).
-/

namespace I860

open FloatFormat

/-- The sums and products that follow the rounding mode, by the bits of their operands. -/
inductive Arithmetic : Nat → Type where
  | addDouble : Arithmetic 64
  | subDouble : Arithmetic 64
  | mulDouble : Arithmetic 64
  | addSingle : Arithmetic 32
  | subSingle : Arithmetic 32
  | mulSingle : Arithmetic 32

namespace Arithmetic

variable {w : Nat}

def format : Arithmetic w → FloatFormat w
  | addDouble | subDouble | mulDouble => binary64
  | addSingle | subSingle | mulSingle => binary32

/-- The operation on rational numbers. -/
def exact : Arithmetic w → ℚ → ℚ → ℚ
  | addDouble | addSingle => (· + ·)
  | subDouble | subSingle => (· - ·)
  | mulDouble | mulSingle => (· * ·)

/-- The exact result for two patterns. -/
def exactOf (op : Arithmetic w) (x y : BitVec w) : ℚ :=
  op.exact (op.format.toRat x) (op.format.toRat y)

/-- The result of a unit that is set to a mode. -/
def run (u : FloatUnit) (mode : RoundingMode) :
    Arithmetic w → BitVec w → BitVec w → BitVec w
  | addDouble => (u.setRounding mode).addDouble
  | subDouble => (u.setRounding mode).subDouble
  | mulDouble => (u.setRounding mode).mulDouble
  | addSingle => (u.setRounding mode).addSingle
  | subSingle => (u.setRounding mode).subSingle
  | mulSingle => (u.setRounding mode).mulSingle

end Arithmetic

/-- The first operand taken from the sum overflows. -/
def DifferenceOverflows (x y : Double) : Prop :=
  binary64.overflow ≤ |binary64.toRat (binary64.add x y) - binary64.toRat x|

/-- The error of a product is rounded to zero. -/
def ErrorUnderflows (x y : Double) : Prop :=
  binary64.toRat (binary64.mul x y) ≠ binary64.toRat x * binary64.toRat y ∧
    |binary64.toRat x * binary64.toRat y - binary64.toRat (binary64.mul x y)| ≤
      binary64.least / 2

/-- A rational number is rounded to 64 bits, and the result has only 32. -/
def RoundsToSingle (q : ℚ) (v : Double) : Prop :=
  binary64.toRat v ≠ q ∧ binary32.IsNumber (binary64.toRat v)

/-- The operation rounds in a way that it cannot see. A product of two numbers of 32 bits is
exact in 64 bits. -/
def Arithmetic.LosesError {w : Nat} : Arithmetic w → BitVec w → BitVec w → Prop
  | addDouble, x, y => DifferenceOverflows x y
  | subDouble, x, y => DifferenceOverflows x (binary64.negate y)
  | mulDouble, x, y => ErrorUnderflows x y
  | addSingle, x, y =>
      RoundsToSingle (binary32.toRat x + binary32.toRat y) (binary64.add (widen x) (widen y))
  | subSingle, x, y =>
      RoundsToSingle (binary32.toRat x - binary32.toRat y) (binary64.sub (widen x) (widen y))
  | mulSingle, _, _ => False

namespace FloatFormat

variable {w : Nat} (f : FloatFormat w)

/-- The results in all modes are on the sides that the modes ask for. -/
def Encloses (q : ℚ) (result : RoundingMode → BitVec w) : Prop :=
  ∀ mode, ∃ a, f.value? (result mode) = some a ∧ mode.Admits q a

/-- An error term that has the sign of the error. -/
structure HasSignOf (e : ℚ) (err : BitVec w) : Prop where
  notNan : f.isNan err = false
  pos_iff : 0 < f.key err ↔ 0 < e
  neg_iff : f.key err < 0 ↔ e < 0

variable {f} {q e : ℚ} {x err : BitVec w} {n : Int} {result : RoundingMode → BitVec w}

theorem value?_of_isFinite [NeZero f.exponent] (hx : f.isFinite x = true) :
    f.value? x = some (f.toRat x : ExtRat) := by
  rw [f.value?_eq (f.isNan_of_isFinite hx), f.extOfKey_of_lt ((f.isFinite_iff x).1 hx),
    f.toRat_eq_ofKey hx]

/-! ## What the sign of an error decides -/

theorem HasSignOf.ofToRat (h : f.isFinite err = true) : f.HasSignOf (f.toRat err) err := by
  have hpos := f.ofKey_strictMono.lt_iff_lt (a := 0) (b := f.key err)
  have hneg := f.ofKey_strictMono.lt_iff_lt (a := f.key err) (b := 0)
  rw [ofKey_zero, ← f.toRat_eq_ofKey h] at hpos hneg
  exact ⟨f.isNan_of_isFinite h, hpos.symm, hneg.symm⟩

theorem RoundsTo.nonneg_of_nonneg (h : f.RoundsTo e err) (he : 0 ≤ e) : 0 ≤ f.key err := by
  obtain ⟨-, n, hnear, hkey⟩ := h
  have hn := hnear.nonneg he
  rw [hkey, clamp]
  omega

theorem RoundsTo.nonpos_of_nonpos (h : f.RoundsTo e err) (he : e ≤ 0) : f.key err ≤ 0 := by
  obtain ⟨-, n, hnear, hkey⟩ := h
  have hn := hnear.nonpos he
  rw [hkey, clamp]
  omega

/-- A rounded error has the sign of the error, unless it is rounded to zero. -/
theorem RoundsTo.hasSignOf (h : f.RoundsTo e err) (hzero : f.key err = 0 → e = 0) :
    f.HasSignOf e err := by
  refine ⟨h.1, ⟨fun hkey => ?_, fun he => ?_⟩, ⟨fun hkey => ?_, fun he => ?_⟩⟩
  · by_contra hle
    have := h.nonpos_of_nonpos (not_lt.1 hle)
    omega
  · have := h.nonneg_of_nonneg he.le
    exact lt_of_le_of_ne this fun heq => he.ne' (hzero heq.symm)
  · by_contra hle
    have := h.nonneg_of_nonneg (not_lt.1 hle)
    omega
  · have := h.nonpos_of_nonpos he.le
    exact lt_of_le_of_ne this fun heq => he.ne (hzero heq)

theorem ofKey_one (hfraction : 0 < f.fraction) : f.ofKey 1 = f.least := by
  have hone : f.units 1 = 1 := f.units_of_lt (Nat.one_lt_two_pow hfraction.ne')
  show (f.units 1 : ℚ) * f.least = f.least
  rw [hone, Nat.cast_one, one_mul]

/-- What is at most half of the least number is rounded to zero. -/
theorem IsNearestKey.eq_zero_iff (hfraction : 0 < f.fraction) (h : f.IsNearestKey q n) :
    n = 0 ↔ |q| ≤ f.least / 2 := by
  have hpos := f.least_pos
  have hone := ofKey_one hfraction
  constructor
  · rintro rfl
    have habove := h.nearest 1
    have hbelow := h.nearest (-1)
    have hnext := h.lt_next
    have hprev := h.prev_lt
    rw [zero_add, hone] at hnext
    rw [zero_sub, ofKey_neg, hone] at hprev
    rw [hone, ofKey_zero, zero_sub, abs_neg, abs_of_pos (sub_pos.2 hnext)] at habove
    rw [ofKey_neg, hone, ofKey_zero, zero_sub, abs_neg, abs_of_neg (sub_neg.2 hprev)] at hbelow
    exact abs_le.2 ⟨by linarith [neg_le_abs q], by linarith [le_abs_self q]⟩
  · intro hq
    by_contra hn
    have hnear := h.nearest 0
    rw [ofKey_zero, zero_sub, abs_neg] at hnear
    have hlarge : f.least ≤ |f.ofKey n| := by
      rw [abs_ofKey, ← hone]
      exact f.ofKey_strictMono.monotone (Int.one_le_abs hn)
    have htriangle := abs_add_le (f.ofKey n - q) q
    rw [sub_add_cancel] at htriangle
    -- Only the least numbers are as near as zero, and then zero is the even one.
    have hkey : |n| = 1 := by
      apply f.ofKey_strictMono.injective
      rw [← abs_ofKey, hone]
      linarith
    have htie : |f.ofKey 0 - q| = |f.ofKey n - q| := by
      rw [ofKey_zero, zero_sub, abs_neg]
      linarith
    have heven := h.even_of_tie 0 (Ne.symm hn) htie
    rw [← even_abs, hkey] at heven
    exact Int.not_even_one heven

theorem RoundsTo.key_eq_zero_iff [NeZero f.exponent] (hfraction : 0 < f.fraction)
    (h : f.RoundsTo e err) : f.key err = 0 ↔ |e| ≤ f.least / 2 := by
  have hpos := f.infinityBits_pos
  obtain ⟨-, n, hnear, hkey⟩ := h
  rw [← hnear.eq_zero_iff hfraction, hkey, clamp]
  omega

/-! ## Enclosures -/

theorem correctedKey_ofKey (mode : RoundingMode) (n : Int) :
    f.correctedKey mode (f.ofKey n) n = n := by
  cases mode <;> simp [correctedKey]

/-- Results with the keys that the modes ask for are enclosing, and a number that is
representable is returned in all modes. -/
theorem encloses_of_corrected [NeZero f.exponent] (hx : f.isFinite x = true)
    (hnear : f.IsNearestKey q (f.key x))
    (h : ∀ mode, f.isNan (result mode) = false ∧
      f.key (result mode) = f.correctedKey mode q (f.key x)) :
    f.Encloses q result ∧
      (f.IsNumber q → ∀ mode, f.value? (result mode) = some (q : ExtRat)) := by
  have hlt := (f.isFinite_iff x).1 hx
  refine ⟨fun mode => ⟨_, f.value?_eq (h mode).1, ?_⟩, ?_⟩
  · rw [(h mode).2]
    exact hnear.admits_corrected hlt mode
  · rintro ⟨n, rfl⟩ mode
    rw [← hnear.eq_of_ofKey.symm] at h hlt
    rw [f.value?_eq (h mode).1, (h mode).2, correctedKey_ofKey, f.extOfKey_of_lt hlt]

/-- A value that is not the exact one cannot be right in all modes. -/
theorem not_encloses_of_value? {r : ℚ} (hne : r ≠ q)
    (h : ∀ mode, f.value? (result mode) = some (r : ExtRat)) : ¬f.Encloses q result := by
  intro henclose
  rcases lt_or_gt_of_ne hne with hlt | hgt
  · obtain ⟨a, ha, hside⟩ := henclose .up
    obtain rfl := Option.some.inj ((h .up).symm.trans ha)
    exact absurd (WithBotTop.coe_le_coe.1 hside) (not_le.2 hlt)
  · obtain ⟨a, ha, hside⟩ := henclose .down
    obtain rfl := Option.some.inj ((h .down).symm.trans ha)
    exact absurd (WithBotTop.coe_le_coe.1 hside) (not_le.2 hgt)

end FloatFormat

/-! ## Corrections by the error -/

variable {q : ℚ} {x y nearest err : Double}

theorem adjust_of_no_sign (h : binary64.isZero err = true ∨ binary64.isNan err = true)
    (mode : RoundingMode) : adjust nearest err mode = nearest := by
  unfold adjust
  rw [if_pos]
  rcases h with h | h
  · rw [h, Bool.true_or, Bool.true_or]
  · rw [h, Bool.or_true]

theorem adjust_nearest : adjust nearest err .nearest = nearest := by
  unfold adjust
  split <;> rfl

section Sign

variable (hn : binary64.isFinite nearest = true)
  (herr : binary64.HasSignOf (q - binary64.toRat nearest) err)

include hn herr

theorem isPositive_error_iff :
    binary64.isPositive err = true ↔ binary64.ofKey (binary64.key nearest) < q := by
  rw [isPositive_iff herr.notNan, herr.pos_iff, binary64.toRat_eq_ofKey hn, sub_pos]

theorem isBelowZero_error_iff :
    binary64.isBelowZero err = true ↔ q < binary64.ofKey (binary64.key nearest) := by
  rw [isBelowZero_iff herr.notNan, herr.neg_iff, binary64.toRat_eq_ofKey hn, sub_neg]

/-- An error with a sign is acted on. -/
theorem sees_of_sign (hkey : binary64.key err ≠ 0) :
    (binary64.isZero err || !binary64.isFinite nearest || binary64.isNan err) = false := by
  rw [hn, herr.notNan, Bool.eq_false_iff.2 fun h => hkey ((binary64.isZero_iff err).1 h)]
  rfl

theorem adjust_up :
    adjust nearest err .up =
      if binary64.ofKey (binary64.key nearest) < q then binary64.nextUp nearest else nearest := by
  have hsign := isPositive_error_iff hn herr
  unfold adjust
  by_cases hside : binary64.ofKey (binary64.key nearest) < q
  · have hkey : 0 < binary64.key err := (isPositive_iff herr.notNan).1 (hsign.2 hside)
    rw [if_pos hside, sees_of_sign hn herr hkey.ne', if_neg Bool.false_ne_true]
    exact if_pos (hsign.2 hside)
  · dsimp only
    rw [if_neg hside, if_neg (mt hsign.1 hside), ite_self]

theorem adjust_down :
    adjust nearest err .down =
      if q < binary64.ofKey (binary64.key nearest) then binary64.nextDown nearest else nearest := by
  have hsign := isBelowZero_error_iff hn herr
  unfold adjust
  by_cases hside : q < binary64.ofKey (binary64.key nearest)
  · have hkey : binary64.key err < 0 := (isBelowZero_iff herr.notNan).1 (hsign.2 hside)
    rw [if_pos hside, sees_of_sign hn herr hkey.ne, if_neg Bool.false_ne_true]
    exact if_pos (hsign.2 hside)
  · dsimp only
    rw [if_neg hside, if_neg (mt hsign.1 hside), ite_self]

variable (hnear : binary64.IsNearestKey q (binary64.key nearest))

include hnear

/-- Toward zero is down from zero on, and up below. -/
theorem adjust_zero :
    adjust nearest err .zero = adjust nearest err (if 0 ≤ q then .down else .up) := by
  have hnan := binary64.isNan_of_isFinite hn
  rcases le_or_gt 0 q with hq | hq
  · -- An error below zero leaves the nearest number above, so that it is positive.
    have htest : (binary64.isPositive nearest && binary64.isBelowZero err) =
        binary64.isBelowZero err := by
      rw [Bool.and_eq_right_iff_imp]
      intro hside
      rw [isPositive_iff hnan, ← binary64.ofKey_strictMono.lt_iff_lt, ofKey_zero]
      exact hq.trans_lt ((isBelowZero_error_iff hn herr).1 hside)
    have hother : binary64.isBelowZero nearest = false := by
      rw [Bool.eq_false_iff, Ne, isBelowZero_iff hnan]
      exact (hnear.nonneg hq).not_gt
    rw [if_pos hq]
    unfold adjust
    dsimp only
    rw [htest, hother, Bool.false_and, if_neg Bool.false_ne_true]
  · have htest : (binary64.isBelowZero nearest && binary64.isPositive err) =
        binary64.isPositive err := by
      rw [Bool.and_eq_right_iff_imp]
      intro hside
      rw [isBelowZero_iff hnan, ← binary64.ofKey_strictMono.lt_iff_lt, ofKey_zero]
      exact ((isPositive_error_iff hn herr).1 hside).trans hq
    have hother : binary64.isPositive nearest = false := by
      rw [Bool.eq_false_iff, Ne, isPositive_iff hnan]
      exact (hnear.nonpos hq.le).not_gt
    rw [if_neg (not_le.2 hq)]
    unfold adjust
    dsimp only
    rw [htest, hother, Bool.false_and, if_neg Bool.false_ne_true]

/-- An error term with the right sign moves the nearest number off the wrong side. -/
theorem adjust_spec (mode : RoundingMode) :
    binary64.isNan (adjust nearest err mode) = false ∧
      binary64.key (adjust nearest err mode) =
        binary64.correctedKey mode q (binary64.key nearest) := by
  have hnan := binary64.isNan_of_isFinite hn
  have hup : binary64.isNan (adjust nearest err .up) = false ∧
      binary64.key (adjust nearest err .up) =
        binary64.correctedKey .up q (binary64.key nearest) := by
    rw [adjust_up hn herr, correctedKey]
    split
    · exact isNan_nextUp hn
    · exact ⟨hnan, rfl⟩
  have hdown : binary64.isNan (adjust nearest err .down) = false ∧
      binary64.key (adjust nearest err .down) =
        binary64.correctedKey .down q (binary64.key nearest) := by
    rw [adjust_down hn herr, correctedKey]
    split
    · exact isNan_nextDown hn
    · exact ⟨hnan, rfl⟩
  cases mode with
  | nearest =>
      rw [adjust_nearest]
      exact ⟨hnan, rfl⟩
  | up => exact hup
  | down => exact hdown
  | zero =>
      rw [adjust_zero hn herr hnear, hnear.correctedKey_zero]
      split
      · exact hdown
      · exact hup

end Sign

/-! ## Results of 64 bits -/

variable {u : FloatUnit}

/-- What is no NaN is delivered as it is. -/
theorem FloatUnit.deliver_of_isNan {w : Nat} {f : FloatFormat w} {x : BitVec w}
    (h : f.isNan x = false) : u.deliver f x = x := by
  rw [deliver, h, Bool.and_false, if_neg Bool.false_ne_true]

/-- If the error term has the sign of the error unless that is lost, and no sign if it is,
then the results in all modes are right unless it is lost. -/
theorem adjusted_encloses_iff {lost : Prop} (hround : binary64.RoundsTo q nearest)
    (hn : binary64.isFinite nearest = true)
    (hkeeps : ¬lost → binary64.HasSignOf (q - binary64.toRat nearest) err)
    (hloses : lost → binary64.toRat nearest ≠ q ∧
      (binary64.isZero err = true ∨ binary64.isNan err = true)) :
    (binary64.Encloses q (fun mode => u.deliver binary64 (adjust nearest err mode)) ↔ ¬lost) ∧
      ((∃ z, binary64.isFinite z = true ∧ binary64.toRat z = q) → ∀ mode,
        binary64.value? (u.deliver binary64 (adjust nearest err mode)) = some (q : ExtRat)) := by
  have hnear := hround.isNearestKey hn
  by_cases h : lost
  · obtain ⟨hne, hsign⟩ := hloses h
    have hstays : ∀ mode, u.deliver binary64 (adjust nearest err mode) = nearest := fun mode => by
      rw [adjust_of_no_sign hsign, u.deliver_of_isNan (binary64.isNan_of_isFinite hn)]
    refine ⟨iff_of_false ?_ (not_not.2 h), ?_⟩
    · refine not_encloses_of_value? hne fun mode => ?_
      rw [hstays]
      exact value?_of_isFinite hn
    · rintro ⟨z, hz, rfl⟩
      exact absurd ((hround.isNearest hn).eq_of_isNumber (.ofToRat hz)) hne
  · have hspec := adjust_spec hn (hkeeps h) hnear
    have hdelivers : ∀ mode,
        binary64.isNan (u.deliver binary64 (adjust nearest err mode)) = false ∧
          binary64.key (u.deliver binary64 (adjust nearest err mode)) =
            binary64.correctedKey mode q (binary64.key nearest) := fun mode => by
      rw [u.deliver_of_isNan (hspec mode).1]
      exact hspec mode
    obtain ⟨hencloses, hreturns⟩ := encloses_of_corrected hn hnear hdelivers
    refine ⟨iff_of_true hencloses h, ?_⟩
    rintro ⟨z, hz, rfl⟩
    exact hreturns (.ofToRat hz)

/-- Where an operation overflows, it gives an infinity. -/
theorem FloatFormat.RoundsTo.decode_of_overflow {w : Nat} {f : FloatFormat w} {q : ℚ}
    {x : BitVec w} (hfraction : 0 < f.fraction) (h : f.RoundsTo q x) (hq : f.overflow ≤ |q|) :
    ∃ negative, f.decode x = .infinite negative := by
  have hinfinite : ¬|f.key x| < f.infinityBits := by
    rw [← f.isFinite_iff, h.isFinite_iff hfraction]
    exact not_lt.2 hq
  have hnan := (f.isNan_eq_false_iff x).1 h.1
  have hmagnitude : f.magnitude x = f.infinityBits := by
    rw [Int.abs_eq_natAbs, natAbs_key] at hinfinite hnan
    omega
  exact ⟨_, f.decode_infinite hmagnitude⟩

theorem FloatFormat.decode_encode_infinite {w : Nat} (f : FloatFormat w) (negative : Bool) :
    f.decode (f.encode (.infinite negative)) = .infinite negative := by
  obtain ⟨hsign, hmagnitude⟩ := f.sign_magnitude_ofMagnitude negative le_rfl
  rw [encode, f.decode_infinite hmagnitude, hsign]

/-- If the difference overflows, opposite infinities are added up for the error. -/
theorem twoSum_of_overflow (hx : binary64.isFinite x = true) (hy : binary64.isFinite y = true)
    (hsum : binary64.isFinite (binary64.add x y) = true) (h : DifferenceOverflows x y) :
    binary64.isNan (twoSum x y).2 = true := by
  have hfraction : 0 < binary64.fraction := by decide
  obtain ⟨n, hd⟩ := (sub_roundsTo hfraction hsum hx).decode_of_overflow hfraction h
  obtain ⟨sx, mx, ex, hdx⟩ := decode_isFinite hx
  obtain ⟨sy, my, ey, hdy⟩ := decode_isFinite hy
  obtain ⟨ss, ms, es, hds⟩ := decode_isFinite hsum
  have hback : binary64.decode (binary64.sub (binary64.add x y)
      (binary64.sub (binary64.add x y) x)) = .infinite (!n) := by
    rw [FloatFormat.sub, hds, hd]
    exact binary64.decode_encode_infinite _
  have hfirst : binary64.decode (binary64.sub x (binary64.sub (binary64.add x y)
      (binary64.sub (binary64.add x y) x))) = .infinite (!!n) := by
    rw [FloatFormat.sub, hback, hdx]
    exact binary64.decode_encode_infinite _
  have hsecond : binary64.decode (binary64.sub y (binary64.sub (binary64.add x y) x)) =
      .infinite (!n) := by
    rw [FloatFormat.sub, hd, hdy]
    exact binary64.decode_encode_infinite _
  have hinvalid : (twoSum x y).2 = binary64.encode .invalid := by
    unfold twoSum
    dsimp only
    rw [FloatFormat.add, hfirst, hsecond, FloatValue.add]
    cases n <;> rfl
  rw [hinvalid]
  decide

/-- In the mode that rounds to nearest, the unit delivers the nearest number. -/
theorem deliver_adjust_nearest (hround : binary64.RoundsTo q nearest) :
    u.deliver binary64 (adjust nearest err .nearest) = nearest := by
  rw [adjust_nearest, u.deliver_of_isNan hround.1]

/-- Sums of 64 bits. -/
theorem addDouble_encloses_iff (hx : binary64.isFinite x = true) (hy : binary64.isFinite y = true)
    (hn : binary64.isFinite ((u.setRounding .nearest).addDouble x y) = true) :
    (binary64.Encloses (binary64.toRat x + binary64.toRat y)
        (fun mode => (u.setRounding mode).addDouble x y) ↔ ¬DifferenceOverflows x y) ∧
      ((∃ z, binary64.isFinite z = true ∧
        binary64.toRat z = binary64.toRat x + binary64.toRat y) → ∀ mode,
        binary64.value? ((u.setRounding mode).addDouble x y) =
          some ((binary64.toRat x + binary64.toRat y : ℚ) : ExtRat)) := by
  have hfraction : 0 < binary64.fraction := by decide
  have hround := add_roundsTo hfraction hx hy
  have hsum : binary64.isFinite (binary64.add x y) = true := deliver_adjust_nearest hround ▸ hn
  refine adjusted_encloses_iff hround hsum (fun h => ?_) fun h =>
    ⟨fun hexact => ?_, .inr (twoSum_of_overflow hx hy hsum h)⟩
  · obtain ⟨hfinite, hvalue⟩ := twoSum_spec hx hy hsum (not_le.1 h)
    rw [← hvalue]
    exact .ofToRat hfinite
  · rw [DifferenceOverflows, hexact, add_sub_cancel_left] at h
    exact absurd (Representable.ofToRat hy).2 (not_lt.2 h)

/-- Products of 64 bits. -/
theorem mulDouble_encloses_iff (hx : binary64.isFinite x = true) (hy : binary64.isFinite y = true)
    (hn : binary64.isFinite ((u.setRounding .nearest).mulDouble x y) = true) :
    (binary64.Encloses (binary64.toRat x * binary64.toRat y)
        (fun mode => (u.setRounding mode).mulDouble x y) ↔ ¬ErrorUnderflows x y) ∧
      ((∃ z, binary64.isFinite z = true ∧
        binary64.toRat z = binary64.toRat x * binary64.toRat y) → ∀ mode,
        binary64.value? ((u.setRounding mode).mulDouble x y) =
          some ((binary64.toRat x * binary64.toRat y : ℚ) : ExtRat)) := by
  have hfraction : 0 < binary64.fraction := by decide
  have hround := mul_roundsTo hfraction hx hy
  have hproduct : binary64.isFinite (binary64.mul x y) = true :=
    deliver_adjust_nearest hround ▸ hn
  have herr := mulAdd_roundsTo hfraction hx hy (isFinite_negate hproduct)
  rw [toRat_negate hproduct, ← sub_eq_add_neg] at herr
  refine adjusted_encloses_iff hround hproduct (fun h => ?_) fun h => ⟨h.1, .inl ?_⟩
  · refine herr.hasSignOf fun hzero => ?_
    by_contra hne
    exact h ⟨fun hexact => hne (sub_eq_zero.2 hexact.symm), (herr.key_eq_zero_iff hfraction).1 hzero⟩
  · exact (binary64.isZero_iff _).2 ((herr.key_eq_zero_iff hfraction).2 h.2)

/-! ## Results of 32 bits -/

namespace FloatFormat

variable {w : Nat} {f : FloatFormat w}

theorem values_cases [NeZero f.exponent] {a : ExtRat} (ha : a ∈ f.values) :
    a = ⊥ ∨ a = ⊤ ∨ ∃ r, f.IsNumber r ∧ a = (r : ExtRat) := by
  obtain ⟨x, hx⟩ := ha
  obtain ⟨n, -, rfl⟩ := f.exists_key_of_value? hx
  unfold extOfKey
  split
  · exact .inl rfl
  · split
    · exact .inr (.inl rfl)
    · exact .inr (.inr ⟨_, ⟨n, rfl⟩, rfl⟩)

/-- Between a rational number and the nearest number of a format there is none of that
format. So if the nearest one is not of a smaller format, the numbers of that are on the
same side of both. -/
theorem IsNearest.admits [NeZero f.exponent] {v : Nat} {g : FloatFormat v} {q s : ℚ}
    (h : g.IsNearest q s) (hsub : ∀ r, f.IsNumber r → g.IsNumber r) (hs : ¬f.IsNumber s)
    {mode : RoundingMode} {a : ExtRat} (ha : a ∈ f.values) (hside : mode.Admits s a) :
    mode.Admits q a := by
  have hbelow : ∀ r, f.IsNumber r → r ≤ s → r ≤ q := fun r hr hle => by
    by_contra hlt
    have heq := le_antisymm (h.le_of_le (hsub r hr) (not_le.1 hlt).le) hle
    exact hs (heq ▸ hr)
  have habove : ∀ r, f.IsNumber r → s ≤ r → q ≤ r := fun r hr hle => by
    by_contra hlt
    have heq := le_antisymm (h.ge_of_ge (hsub r hr) (not_le.1 hlt).le) hle
    exact hs (heq ▸ hr)
  have hzero := hbelow 0 .zero
  have hzero' := habove 0 .zero
  rcases values_cases ha with rfl | rfl | ⟨r, hr, rfl⟩
  · cases mode with
    | nearest => exact trivial
    | down => exact bot_le
    | up => exact absurd hside not_coe_le_bot
    | zero => exact absurd hside.1 not_coe_le_bot
  · cases mode with
    | nearest => exact trivial
    | down => exact absurd hside not_top_le_coe
    | up => exact le_top
    | zero => exact absurd hside.2 not_top_le_coe
  · cases mode with
    | nearest => exact trivial
    | down => exact WithBotTop.coe_le_coe.2 (hbelow r hr (WithBotTop.coe_le_coe.1 hside))
    | up => exact WithBotTop.coe_le_coe.2 (habove r hr (WithBotTop.coe_le_coe.1 hside))
    | zero =>
        obtain ⟨hlow, hhigh⟩ := hside
        rw [WithBotTop.coe_le_coe] at hlow hhigh
        rw [RoundingMode.Admits, WithBotTop.coe_le_coe, WithBotTop.coe_le_coe]
        rcases le_total 0 s with hpos | hneg
        · rw [abs_of_nonneg hpos] at hlow hhigh
          rw [abs_of_nonneg (hzero hpos)]
          have := hbelow (-r) hr.neg (by linarith)
          exact ⟨by linarith, hbelow r hr hhigh⟩
        · rw [abs_of_nonpos hneg] at hlow hhigh
          rw [abs_of_nonpos (hzero' hneg)]
          have := habove (-r) hr.neg (by linarith)
          exact ⟨by rw [neg_neg]; exact habove r hr (by linarith), by linarith⟩

end FloatFormat

theorem narrow_nearest (v : Double) : narrow v .nearest = narrowNearest v := by
  unfold narrow
  exact ite_self _

theorem isNumber_of_single {r : ℚ} (h : binary32.IsNumber r) : binary64.IsNumber r :=
  h.of_format (by decide) (by decide)

/-- A result that is narrowed from a rounded one is right, unless the first rounding cannot be
seen in the second. -/
theorem narrowed_encloses_iff {v : Double} (hround : binary64.RoundsTo q v)
    (hq : |q| < binary64.overflow)
    (hn : binary32.isFinite (u.deliver binary32 (narrow v .nearest)) = true) :
    (binary32.Encloses q (fun mode => u.deliver binary32 (narrow v mode)) ↔
        ¬RoundsToSingle q v) ∧
      ((∃ z, binary32.isFinite z = true ∧ binary32.toRat z = q) → ∀ mode,
        binary32.value? (u.deliver binary32 (narrow v mode)) = some (q : ExtRat)) := by
  have hv : binary64.isFinite v = true := (hround.isFinite_iff (by decide)).2 hq
  have hnear := hround.isNearest hv
  rw [narrow_nearest, u.deliver_of_isNan (narrowNearest_roundsTo hv).1] at hn
  have hspec := narrow_spec hv hn
  have hdelivers : ∀ mode, binary32.isNan (u.deliver binary32 (narrow v mode)) = false ∧
      binary32.key (u.deliver binary32 (narrow v mode)) =
        binary32.correctedKey mode (binary64.toRat v) (binary32.key (narrowNearest v)) :=
    fun mode => by
      rw [u.deliver_of_isNan (hspec mode).1]
      exact hspec mode
  obtain ⟨hencloses, hreturns⟩ :=
    encloses_of_corrected hn ((narrowNearest_roundsTo hv).isNearestKey hn) hdelivers
  constructor
  · by_cases h : RoundsToSingle q v
    · exact iff_of_false (not_encloses_of_value? h.1 (hreturns h.2)) (not_not.2 h)
    · refine iff_of_true (fun mode => ?_) h
      obtain ⟨a, ha, hside⟩ := hencloses mode
      refine ⟨a, ha, ?_⟩
      by_cases hexact : binary64.toRat v = q
      · rwa [hexact] at hside
      · exact hnear.admits (fun r => isNumber_of_single) (fun hs => h ⟨hexact, hs⟩) ⟨_, ha⟩ hside
  · rintro ⟨z, hz, rfl⟩ mode
    have hnumber : binary32.IsNumber (binary32.toRat z) := .ofToRat hz
    have hexact := hnear.eq_of_isNumber (isNumber_of_single hnumber)
    rw [← hexact] at hnumber ⊢
    exact hreturns hnumber mode

/-- Numbers of 32 bits are far from all overflow in 64 bits. -/
theorem abs_lt_overflow {a b : Word} (ha : binary32.isFinite a = true)
    (hb : binary32.isFinite b = true) :
    |binary32.toRat a + binary32.toRat b| < binary64.overflow ∧
      |binary32.toRat a - binary32.toRat b| < binary64.overflow ∧
      |binary32.toRat a * binary32.toRat b| < binary64.overflow := by
  have hlarge : (2 : ℚ) ^ (128 : Int) * 2 ^ (128 : Int) ≤ binary64.overflow := by
    rw [← zpow_add₀ two_ne_zero]
    exact (zpow_le_zpow_right₀ one_le_two (by decide)).trans two_zpow_le_overflow
  have halt : |binary32.toRat a| < 2 ^ (128 : Int) := abs_toRat_lt ha
  have hblt : |binary32.toRat b| < 2 ^ (128 : Int) := abs_toRat_lt hb
  have hdouble : (2 : ℚ) ^ (128 : Int) + 2 ^ (128 : Int) ≤ 2 ^ (128 : Int) * 2 ^ (128 : Int) := by
    norm_num
  refine ⟨?_, ?_, ?_⟩
  · have := abs_add_le (binary32.toRat a) (binary32.toRat b)
    linarith
  · have := abs_sub (binary32.toRat a) (binary32.toRat b)
    linarith
  · rw [abs_mul]
    exact (mul_lt_mul'' halt hblt (abs_nonneg _) (abs_nonneg _)).trans_le hlarge

/-- The product of two numbers of 32 bits is one of 64 bits. -/
theorem isNumber_mul {a b : Word} (ha : binary32.isFinite a = true)
    (hb : binary32.isFinite b = true) :
    binary64.IsNumber (binary32.toRat a * binary32.toRat b) := by
  obtain ⟨i, hi, hagrid, halt⟩ := (IsNumber.ofToRat ha).exists_grid
  obtain ⟨j, hj, hbgrid, hblt⟩ := (IsNumber.ofToRat hb).exists_grid
  obtain ⟨m, hm⟩ := mem_grid.1 hagrid
  obtain ⟨n, hn⟩ := mem_grid.1 hbgrid
  have hscale : binary32.leastScale = -149 := by decide
  have hscale' : binary64.leastScale = -1074 := by decide
  have hprecision : binary32.precision = 24 := by decide
  have hprecision' : binary64.precision = 53 := by decide
  have hgrid : binary32.toRat a * binary32.toRat b ∈ grid (i + j) := by
    refine mem_grid.2 ⟨m * n, ?_⟩
    rw [hm, hn, zpow_add₀ two_ne_zero]
    push_cast
    ring
  refine .of_grid (by omega) hgrid ?_
  rw [abs_mul]
  refine (mul_lt_mul'' halt hblt (abs_nonneg _) (abs_nonneg _)).le.trans ?_
  rw [← zpow_add₀ two_ne_zero]
  exact zpow_le_zpow_right₀ one_le_two (by omega)

/-- A sum or product whose nearest result is finite has its results in all modes on the
sides that the modes ask for, if and only if the unit does not round in a way that it cannot
see. What can be represented is returned in all modes. -/
theorem encloses_iff {w : Nat} (op : Arithmetic w) (u : FloatUnit) {x y : BitVec w}
    (hx : op.format.isFinite x = true) (hy : op.format.isFinite y = true)
    (hn : op.format.isFinite (op.run u .nearest x y) = true) :
    (op.format.Encloses (op.exactOf x y) (fun mode => op.run u mode x y) ↔
        ¬op.LosesError x y) ∧
      ((∃ z, op.format.isFinite z = true ∧ op.format.toRat z = op.exactOf x y) → ∀ mode,
        op.format.value? (op.run u mode x y) = some (op.exactOf x y : ExtRat)) := by
  cases op with
  | addDouble => exact addDouble_encloses_iff hx hy hn
  | subDouble =>
      have hvalue : binary64.toRat (binary64.negate y) = -binary64.toRat y := toRat_negate hy
      have h := addDouble_encloses_iff hx (isFinite_negate hy) hn
      rw [hvalue, ← sub_eq_add_neg] at h
      exact h
  | mulDouble => exact mulDouble_encloses_iff hx hy hn
  | addSingle =>
      obtain ⟨hxfinite, hxvalue⟩ := widen_spec hx
      obtain ⟨hyfinite, hyvalue⟩ := widen_spec hy
      have hround := add_roundsTo (by decide) hxfinite hyfinite
      rw [hxvalue, hyvalue] at hround
      exact narrowed_encloses_iff hround (abs_lt_overflow hx hy).1 hn
  | subSingle =>
      obtain ⟨hxfinite, hxvalue⟩ := widen_spec hx
      obtain ⟨hyfinite, hyvalue⟩ := widen_spec hy
      have hround := sub_roundsTo (by decide) hxfinite hyfinite
      rw [hxvalue, hyvalue] at hround
      exact narrowed_encloses_iff hround (abs_lt_overflow hx hy).2.1 hn
  | mulSingle =>
      obtain ⟨hxfinite, hxvalue⟩ := widen_spec hx
      obtain ⟨hyfinite, hyvalue⟩ := widen_spec hy
      have hround := mul_roundsTo (by decide) hxfinite hyfinite
      rw [hxvalue, hyvalue] at hround
      have hlt := (abs_lt_overflow hx hy).2.2
      obtain ⟨hiff, hreturns⟩ := narrowed_encloses_iff hround hlt hn
      have hexact := (hround.exact (by decide) ⟨isNumber_mul hx hy, hlt⟩).2
      exact ⟨hiff.trans (not_congr (iff_of_false (fun h => h.1 hexact) id)), hreturns⟩

/-- One and `2 ^ -60`, added in 64 bits. -/
theorem encloses_iff_of_small_addend :
    binary64.isFinite 0x3ff0000000000000#64 = true ∧
      binary64.isFinite 0x3c30000000000000#64 = true ∧
      Arithmetic.addDouble.run .initial .nearest 0x3ff0000000000000#64 0x3c30000000000000#64 =
        0x3ff0000000000000#64 ∧
      Arithmetic.addDouble.run .initial .up 0x3ff0000000000000#64 0x3c30000000000000#64 =
        0x3ff0000000000001#64 ∧
      binary64.Encloses
        (Arithmetic.addDouble.exactOf 0x3ff0000000000000#64 0x3c30000000000000#64)
        (fun mode => Arithmetic.addDouble.run .initial mode 0x3ff0000000000000#64
          0x3c30000000000000#64) := by
  have hx : binary64.isFinite 0x3ff0000000000000#64 = true := by decide
  have hy : binary64.isFinite 0x3c30000000000000#64 = true := by decide
  have hrun : Arithmetic.addDouble.run .initial .nearest 0x3ff0000000000000#64
      0x3c30000000000000#64 = 0x3ff0000000000000#64 := by decide +kernel
  have hn : binary64.isFinite (Arithmetic.addDouble.run .initial .nearest 0x3ff0000000000000#64
      0x3c30000000000000#64) = true := by
    rw [hrun]
    exact hx
  have hsum : binary64.add 0x3ff0000000000000#64 0x3c30000000000000#64 =
      0x3ff0000000000000#64 := by decide +kernel
  have hsees : ¬Arithmetic.addDouble.LosesError 0x3ff0000000000000#64 0x3c30000000000000#64 := by
    show ¬DifferenceOverflows _ _
    rw [DifferenceOverflows, hsum, sub_self, abs_zero, not_le]
    exact (abs_nonneg _).trans_lt (Representable.ofToRat hx).2
  exact ⟨hx, hy, hrun, by decide +kernel, (encloses_iff .addDouble .initial hx hy hn).1.2 hsees⟩

/-- The error of one and `2 ^ -60` does not show in 32 bits, that of half of the least number
is zero again, and that of the largest number less one and a half of its steps is no number
at all. In all three cases the result is on the wrong side. -/
theorem unseen_errors :
    (Arithmetic.addSingle.run .initial .up 0x3f800000#32 0x21800000#32 = 0x3f800000#32 ∧
        binary32.toRat 0x3f800000#32 <
          Arithmetic.addSingle.exactOf 0x3f800000#32 0x21800000#32) ∧
      (Arithmetic.mulDouble.run .initial .up 1#64 0x3fe0000000000000#64 = 0#64 ∧
        binary64.toRat 0#64 < Arithmetic.mulDouble.exactOf 1#64 0x3fe0000000000000#64) ∧
      (Arithmetic.addDouble.run .initial .down 0xfca8000000000000#64 0x7fefffffffffffff#64 =
          0x7feffffffffffffe#64 ∧
        Arithmetic.addDouble.exactOf 0xfca8000000000000#64 0x7fefffffffffffff#64 <
          binary64.toRat 0x7feffffffffffffe#64) := by
  refine ⟨⟨by decide +kernel, ?_⟩, ⟨by decide +kernel, ?_⟩, ⟨by decide +kernel, ?_⟩⟩
  · have hy : binary32.decode 0x21800000#32 = .finite false 8388608 (-83) := by decide
    have hpos : 0 < binary32.toRat 0x21800000#32 := by
      rw [toRat, hy, FloatValue.toRat, if_neg Bool.false_ne_true]
      positivity
    exact lt_add_of_pos_right _ hpos
  · have hx : binary64.decode 1#64 = .finite false 1 (-1074) := by decide
    have hy : binary64.decode 0x3fe0000000000000#64 = .finite false 4503599627370496 (-53) := by
      decide
    have hxpos : 0 < binary64.toRat 1#64 := by
      rw [toRat, hx, FloatValue.toRat, if_neg Bool.false_ne_true]
      positivity
    have hypos : 0 < binary64.toRat 0x3fe0000000000000#64 := by
      rw [toRat, hy, FloatValue.toRat, if_neg Bool.false_ne_true]
      positivity
    rw [binary64.toRat_eq_ofKey (by decide : binary64.isFinite 0#64 = true), key_zero, ofKey_zero]
    exact mul_pos hxpos hypos
  · have hx : binary64.decode 0xfca8000000000000#64 = .finite true 6755399441055744 919 := by
      decide
    have hy : binary64.decode 0x7fefffffffffffff#64 = .finite false 9007199254740991 971 := by
      decide
    have hz : binary64.decode 0x7feffffffffffffe#64 = .finite false 9007199254740990 971 := by
      decide
    have hscale : (2 : ℚ) ^ (971 : Int) = 4503599627370496 * 2 ^ (919 : Int) := by
      rw [show (971 : Int) = 52 + 919 by decide, zpow_add₀ two_ne_zero]
      norm_num
    have hpos : (0 : ℚ) < 2 ^ (919 : Int) := zpow_pos two_pos _
    show binary64.toRat 0xfca8000000000000#64 + binary64.toRat 0x7fefffffffffffff#64 <
      binary64.toRat 0x7feffffffffffffe#64
    rw [toRat, toRat, toRat, hx, hy, hz, FloatValue.toRat, FloatValue.toRat, FloatValue.toRat,
      hscale, if_pos rfl, if_neg Bool.false_ne_true]
    generalize (2 : ℚ) ^ (919 : Int) = c at hpos
    push_cast
    linarith

end I860
