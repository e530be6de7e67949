import I860.Float.Format
/-!
# The order of floating-point numbers

Leaving NaNs aside, numbers are ordered as their keys: the magnitude bits, negated under a
set sign bit, so that both zeros have key 0. The neighbours of a number are those with the
next keys, which is a step of one in the bit pattern.
-/

namespace I860.FloatFormat

variable {w : Nat} (f : FloatFormat w)

/-- The place of a number in the order. -/
def key (x : BitVec w) : Int :=
  if f.isNegative x then -(f.magnitude x : Int) else f.magnitude x

/-- `x < y`; false if either is a NaN. -/
def lt (x y : BitVec w) : Bool := !f.isNan x && !f.isNan y && decide (f.key x < f.key y)

/-- `x ≤ y`; false if either is a NaN. -/
def le (x y : BitVec w) : Bool := !f.isNan x && !f.isNan y && decide (f.key x ≤ f.key y)

/-- Equality of numbers; false if either is a NaN. -/
def eq (x y : BitVec w) : Bool := !f.isNan x && !f.isNan y && decide (f.key x = f.key y)

/-- Whether a number is zero, of either sign. -/
def isZero (x : BitVec w) : Bool := f.magnitude x == 0

def isPositive (x : BitVec w) : Bool := f.lt 0#w x

def isBelowZero (x : BitVec w) : Bool := f.lt x 0#w

/-- The next number towards plus infinity; infinity and NaNs stay. -/
def nextUp (x : BitVec w) : BitVec w :=
  if f.isNan x || x == BitVec.ofNat w f.infinityBits then x
  else if f.isZero x then 1#w
  else if f.isNegative x then x - 1#w
  else x + 1#w

/-- The next number towards minus infinity. -/
def nextDown (x : BitVec w) : BitVec w := f.negate (f.nextUp (f.negate x))

end I860.FloatFormat
