import I860.Float.Nearest
import I860.Word
/-!
# Binary floating-point formats

A format has a sign bit, an exponent field and a fraction field. `decode` reads a bit
pattern as what it stands for, `encode` rounds such a value to the nearest pattern. The
value between them is exact, so an operation is carried out on exact values and rounded
once.

The patterns of one sign are ordered as the numbers they stand for. Rounding uses this: it
finds the grid that the value falls on, counts how many steps of that grid it is away from
the least one, and a carry into the next exponent needs no case of its own.
-/

namespace I860

/-- What a bit pattern stands for. A finite number is `±significand · 2 ^ scale`; the
payload of a NaN is aligned to the top of a 52-bit fraction, so that it has one meaning in
all formats. -/
inductive FloatValue where
  | nan (negative : Bool) (payload : Nat)
  | infinite (negative : Bool)
  | finite (negative : Bool) (significand : Nat) (scale : Int)
  deriving DecidableEq, Repr

/-- A format of `w` bits. -/
structure FloatFormat (w : Nat) where
  /-- Bits of the fraction field. -/
  fraction : Nat
  /-- Bits of the exponent field. -/
  exponent : Nat
  width_eq : w = 1 + exponent + fraction

/-- The 32-bit format. -/
def binary32 : FloatFormat 32 := ⟨23, 8, rfl⟩

/-- The 64-bit format. -/
def binary64 : FloatFormat 64 := ⟨52, 11, rfl⟩

namespace FloatFormat

variable {w : Nat} (f : FloatFormat w)

/-- The exponent field of infinities and NaNs. -/
def topField : Nat := 2 ^ f.exponent - 1

/-- The pattern of infinity, as a number. It is above those of all finite numbers. -/
def infinityBits : Nat := f.topField * 2 ^ f.fraction

/-- The scale of the least positive number, and of all numbers near zero. -/
def leastScale : Int := 2 - 2 ^ (f.exponent - 1) - f.fraction

/-- The sign bit by itself. -/
def signBit : BitVec w := BitVec.ofNat w (2 ^ (f.exponent + f.fraction))

def isNegative (x : BitVec w) : Bool := x.toNat.testBit (f.exponent + f.fraction)

/-- The pattern of a number without its sign, as a number. -/
def magnitude (x : BitVec w) : Nat := x.toNat % 2 ^ (f.exponent + f.fraction)

def isNan (x : BitVec w) : Bool := f.infinityBits < f.magnitude x

def isFinite (x : BitVec w) : Bool := f.magnitude x < f.infinityBits

/-- The number with the other sign. -/
def negate (x : BitVec w) : BitVec w := x ^^^ f.signBit

/-- The number without its sign. -/
def absolute (x : BitVec w) : BitVec w := x &&& ~~~f.signBit

/-- A pattern from a sign and a magnitude. -/
def ofMagnitude (negative : Bool) (magnitude : Nat) : BitVec w :=
  BitVec.ofNat w magnitude ||| (if negative then f.signBit else 0#w)

/-- The quiet NaN that stands for all others where NaNs are not told apart. -/
def quietNan : BitVec w := BitVec.ofNat w (f.infinityBits + 2 ^ (f.fraction - 1))

/-- What a bit pattern stands for. -/
def decode (x : BitVec w) : FloatValue :=
  let field := f.magnitude x / 2 ^ f.fraction
  let fraction := f.magnitude x % 2 ^ f.fraction
  if field = f.topField then
    if fraction = 0 then .infinite (f.isNegative x)
    else .nan (f.isNegative x) (fraction * 2 ^ (52 - f.fraction))
  else if field = 0 then .finite (f.isNegative x) fraction f.leastScale
  else .finite (f.isNegative x) (2 ^ f.fraction + fraction) (f.leastScale + field - 1)

/-- The scale of the grid that `significand · 2 ^ scale` is rounded to. -/
def gridScale (significand : Nat) (scale : Int) : Int :=
  max (scale + significand.log2 - f.fraction) f.leastScale

/-- The magnitude nearest to `significand · 2 ^ scale`, infinity where none is as large. -/
def roundMagnitude (significand : Nat) (scale : Int) : Nat :=
  if significand = 0 then 0
  else
    let grid := f.gridScale significand scale
    min f.infinityBits
      ((grid - f.leastScale).toNat * 2 ^ f.fraction + scaleNearestEven significand (scale - grid))

/-- The pattern nearest to a value. A NaN keeps its sign and what fits of its payload, and
becomes quiet. -/
def encode : FloatValue → BitVec w
  | .nan negative payload =>
      f.ofMagnitude negative
        (f.infinityBits + (payload / 2 ^ (52 - f.fraction) ||| 2 ^ (f.fraction - 1)))
  | .infinite negative => f.ofMagnitude negative f.infinityBits
  | .finite negative significand scale =>
      f.ofMagnitude negative (f.roundMagnitude significand scale)

end FloatFormat

/-- The 64-bit number equal to a 32-bit one. -/
def widen (x : Word) : Double := binary64.encode (binary32.decode x)

/-- The 32-bit number nearest to a 64-bit one. -/
def narrowNearest (x : Double) : Word := binary32.encode (binary64.decode x)

end I860
