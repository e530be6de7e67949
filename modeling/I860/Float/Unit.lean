import I860.Float.Directed
/-!
# The floating-point unit

The arithmetic that floating-point instructions draw on, with the rounding mode it is set
to. Sums and products follow the mode; quotients and square roots are rounded to nearest.
Results of 32 bits are formed in 64 bits and rounded once more.

What bits a NaN result has is a property of the unit: either those that the arithmetic gives,
or the same for every NaN.
-/

namespace I860

/-- A floating-point unit. -/
structure FloatUnit where
  rounding : RoundingMode
  /-- Every NaN that an operation gives is the positive quiet one. -/
  uniformNan : Bool
  deriving DecidableEq, Repr

namespace FloatUnit

/-- A unit that rounds to nearest and passes NaNs on. -/
def initial : FloatUnit := ⟨.nearest, false⟩

/-- The unit set to another rounding mode. -/
def setRounding (u : FloatUnit) (mode : RoundingMode) : FloatUnit := { u with rounding := mode }

/-- The result of an operation as the unit delivers it. -/
def deliver {w : Nat} (u : FloatUnit) (f : FloatFormat w) (result : BitVec w) : BitVec w :=
  if u.uniformNan && f.isNan result then f.quietNan else result

def addDouble (u : FloatUnit) (x y : Double) : Double :=
  let (sum, err) := twoSum x y
  u.deliver binary64 (adjust sum err u.rounding)

def subDouble (u : FloatUnit) (x y : Double) : Double :=
  u.addDouble x (binary64.negate y)

def mulDouble (u : FloatUnit) (x y : Double) : Double :=
  let (product, err) := twoProduct x y
  u.deliver binary64 (adjust product err u.rounding)

def divDouble (u : FloatUnit) (x y : Double) : Double :=
  u.deliver binary64 (binary64.div x y)

def sqrtDouble (u : FloatUnit) (x : Double) : Double :=
  u.deliver binary64 (binary64.sqrt x)

def addSingle (u : FloatUnit) (x y : Word) : Word :=
  u.deliver binary32 (narrow (binary64.add (widen x) (widen y)) u.rounding)

def subSingle (u : FloatUnit) (x y : Word) : Word :=
  u.deliver binary32 (narrow (binary64.sub (widen x) (widen y)) u.rounding)

def mulSingle (u : FloatUnit) (x y : Word) : Word :=
  u.deliver binary32 (narrow (binary64.mul (widen x) (widen y)) u.rounding)

def divSingle (u : FloatUnit) (x y : Word) : Word :=
  u.deliver binary32 (binary32.div x y)

def sqrtSingle (u : FloatUnit) (x : Word) : Word :=
  u.deliver binary32 (binary32.sqrt x)

/-- A 64-bit number rounded to 32 bits in the unit's mode. -/
def narrow (u : FloatUnit) (v : Double) : Word :=
  u.deliver binary32 (I860.narrow v u.rounding)

/-- A number as a signed 32-bit integer, truncated or rounded in the unit's mode. -/
def toInt (u : FloatUnit) (v : Double) (truncate : Bool) : Int :=
  let mode := if truncate then .zero else u.rounding
  ((binary64.decode v).roundIntegral mode).toSaturatedInt

end FloatUnit

end I860
