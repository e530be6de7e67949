import I860.Float.Exact
import I860.Float.Order
import I860.Float.RoundingMode
/-!
# Directed rounding

The arithmetic at hand rounds to nearest. A sum or product in another mode is found from
the nearest one and the error made: where the error says that the exact result lies on the
far side, the result moves to its neighbour.
-/

namespace I860

/-- The number nearest to `x + y`, and the error `x + y` less that number. -/
def twoSum (x y : Double) : Double × Double :=
  let sum := binary64.add x y
  let fromY := binary64.sub sum x
  (sum, binary64.add (binary64.sub x (binary64.sub sum fromY)) (binary64.sub y fromY))

/-- The number nearest to `x · y`, and the error `x · y` less that number. -/
def twoProduct (x y : Double) : Double × Double :=
  let product := binary64.mul x y
  (product, binary64.mulAdd x y (binary64.negate product))

/-- The number nearest to a value and that value's error, corrected for the mode. -/
def adjust (nearest err : Double) (mode : RoundingMode) : Double :=
  if binary64.isZero err || !binary64.isFinite nearest || binary64.isNan err then nearest
  else
    match mode with
    | .nearest => nearest
    | .up => if binary64.isPositive err then binary64.nextUp nearest else nearest
    | .down => if binary64.isBelowZero err then binary64.nextDown nearest else nearest
    | .zero =>
        if binary64.isPositive nearest && binary64.isBelowZero err then
          binary64.nextDown nearest
        else if binary64.isBelowZero nearest && binary64.isPositive err then
          binary64.nextUp nearest
        else nearest

/-- A 64-bit number rounded to 32 bits in the given mode. What overflows to infinity stays
there in every mode. -/
def narrow (v : Double) (mode : RoundingMode) : Word :=
  let nearest := narrowNearest v
  if !binary32.isFinite nearest || binary64.isNan v then nearest
  else
    let back := widen nearest
    match mode with
    | .nearest => nearest
    | .up => if binary64.lt back v then binary32.nextUp nearest else nearest
    | .down => if binary64.lt v back then binary32.nextDown nearest else nearest
    | .zero =>
        if binary64.lt (binary64.absolute v) (binary64.absolute back) then
          if binary32.isPositive nearest then binary32.nextDown nearest
          else binary32.nextUp nearest
        else nearest

/-- The integer that `significand · 2 ^ scale` of the given sign is rounded to, without the
sign. -/
def integralMagnitude (mode : RoundingMode) (negative : Bool) (significand : Nat) (scale : Int) :
    Nat :=
  if 0 ≤ scale then significand * 2 ^ scale.toNat
  else
    let unit := 2 ^ (-scale).toNat
    match mode with
    | .nearest => divNearestEven significand unit
    | .down => if negative then divCeil significand unit else significand / unit
    | .up => if negative then significand / unit else divCeil significand unit
    | .zero => significand / unit

/-- The value rounded to an integer. The sign stays, also that of a zero. -/
def FloatValue.roundIntegral (mode : RoundingMode) : FloatValue → FloatValue
  | .finite negative significand scale =>
      .finite negative (integralMagnitude mode negative significand scale) 0
  | v => v

/-- The number rounded to an integer. -/
def roundIntegral (v : Double) (mode : RoundingMode) : Double :=
  binary64.encode ((binary64.decode v).roundIntegral mode)

/-- The nearest integer of 32 bits to an integral value: out of range goes to the end of the
range, and a NaN is zero. -/
def FloatValue.toSaturatedInt : FloatValue → Int
  | .nan _ _ => 0
  | .infinite negative => if negative then -2 ^ 31 else 2 ^ 31 - 1
  | .finite negative significand scale =>
      let n : Int := scaleNearestEven significand scale
      if negative then max (-n) (-2 ^ 31) else min n (2 ^ 31 - 1)

end I860
