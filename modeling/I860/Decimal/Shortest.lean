import I860.Float.Format
/-!
# Shortest decimals

Many decimals read back as the same floating-point number. This finds one with as few digits
as can be, and of those the one nearest to the number; of two that are equally near it is the
greater.

For each count of digits there is a grid of decimals. If any decimal of the grid reads back,
so does one of the two that the number lies between; so those two are tried on the grid of
one digit, of two, and so on. Seventeen digits always suffice. Everything is integer
arithmetic: both the number and the bounds of what reads back as it are multiples of a
quarter of its grid step.
-/

namespace I860.Decimal

/-- `digits · 10 ^ exponent`. -/
structure Digits where
  digits : Nat
  exponent : Int
  deriving DecidableEq, Repr

/-- Whether `a · 2 ^ p ≤ b · 10 ^ q`. -/
def binaryLeDecimal (a : Nat) (p : Int) (b : Nat) (q : Int) : Bool :=
  a * 2 ^ p.toNat * 10 ^ (-q).toNat ≤ b * 10 ^ q.toNat * 2 ^ (-p).toNat

/-- Whether `b · 10 ^ q ≤ a · 2 ^ p`. -/
def decimalLeBinary (b : Nat) (q : Int) (a : Nat) (p : Int) : Bool :=
  b * 10 ^ q.toNat * 2 ^ (-p).toNat ≤ a * 2 ^ p.toNat * 10 ^ (-q).toNat

/-- The greatest `k` with `10 ^ k ≤ significand · 2 ^ scale`. The logarithm of two is close
enough to give it up to one, and comparing settles which. -/
def decimalExponent (significand : Nat) (scale : Int) : Int :=
  let guess := ((significand.log2 + scale) * 30103).fdiv 100000
  if !decimalLeBinary 1 guess significand scale then guess - 1
  else if decimalLeBinary 1 (guess + 1) significand scale then guess + 1
  else guess

/-- The numbers that read back as a given one: those between `low` and `high` in units of
`2 ^ scale`, the ends included or not. The number itself is `middle`. -/
structure Interval where
  low : Nat
  middle : Nat
  high : Nat
  scale : Int
  closed : Bool
  deriving DecidableEq, Repr

namespace Interval

/-- The numbers nearer to `significand · 2 ^ scale` than to its neighbours. The one below is
at half the distance if the significand is the least of its exponent. -/
def around (significand : Nat) (scale : Int) : Interval where
  low :=
    if significand = 2 ^ binary64.fraction ∧ binary64.leastScale < scale then 4 * significand - 1
    else 4 * significand - 2
  middle := 4 * significand
  high := 4 * significand + 2
  scale := scale - 2
  closed := significand % 2 = 0

/-- Whether `d · 10 ^ e` lies in the interval. -/
def contains (v : Interval) (d : Nat) (e : Int) : Bool :=
  if v.closed then binaryLeDecimal v.low v.scale d e && decimalLeBinary d e v.high v.scale
  else !decimalLeBinary d e v.low v.scale && !binaryLeDecimal v.high v.scale d e

/-- The greatest `d` for which `d · 10 ^ e` is not above the number. -/
def floorOnGrid (v : Interval) (e : Int) : Nat :=
  v.middle * 2 ^ v.scale.toNat * 10 ^ (-e).toNat / (10 ^ e.toNat * 2 ^ (-v.scale).toNat)

/-- Whether `(d + 1) · 10 ^ e` is at least as near to the number as `d · 10 ^ e`. -/
def nearerAbove (v : Interval) (d : Nat) (e : Int) : Bool :=
  decimalLeBinary (2 * d + 1) e (2 * v.middle) v.scale

/-- The decimal of the grid `10 ^ e` that reads back, if there is one. -/
def onGrid? (v : Interval) (e : Int) : Option Nat :=
  let d := v.floorOnGrid e
  match v.contains d e, v.contains (d + 1) e with
  | true, true => some (if v.nearerAbove d e then d + 1 else d)
  | true, false => some d
  | false, true => some (d + 1)
  | false, false => none

/-- Tries the grids of more and more digits; `top` is the exponent of the first digit. -/
def search (v : Interval) (top : Int) : (tries : Nat) → (digits : Nat) → Digits
  | 0, digits => ⟨v.floorOnGrid (top - digits), top - digits⟩
  | tries + 1, digits =>
      match v.onGrid? (top - digits) with
      | some d => ⟨d, top - digits⟩
      | none => v.search top tries (digits + 1)

end Interval

/-- The shortest decimal that reads back as `significand · 2 ^ scale`, for a positive
significand of the 64-bit format. -/
def shortest (significand : Nat) (scale : Int) : Digits :=
  (Interval.around significand scale).search (decimalExponent significand scale) 17 0

end I860.Decimal
