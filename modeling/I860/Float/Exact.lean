import I860.Float.Format
/-!
# Arithmetic on exact values

Sums and products of finite numbers are exact here. Quotients and square roots are not
finite binary numbers, so they are cut off far below the precision of any format, and the
last bit then records whether something was cut off; this cannot be mistaken for a tie, so
rounding it gives what rounding the true value would.

An operation with a NaN operand gives the first such operand. An operation without a
meaning gives `invalid`.
-/

namespace I860.FloatValue

/-- The result of an operation that has none. -/
def invalid : FloatValue := .nan true (2 ^ 51)

/-- A signed integer times a power of two; `negativeZero` is the sign of an exact zero. -/
def ofScaledInt (n : Int) (scale : Int) (negativeZero : Bool) : FloatValue :=
  if n = 0 then .finite negativeZero 0 scale else .finite (decide (n < 0)) n.natAbs scale

/-- The significand with its sign, brought to a smaller scale. -/
def alignedTo (target : Int) (negative : Bool) (significand : Nat) (scale : Int) : Int :=
  let n : Int := significand * 2 ^ (scale - target).toNat
  if negative then -n else n

def negate : FloatValue → FloatValue
  | .nan negative payload => .nan (!negative) payload
  | .infinite negative => .infinite (!negative)
  | .finite negative significand scale => .finite (!negative) significand scale

/-- The sum. A sum that is exactly zero is negative only if both operands are. -/
def add : FloatValue → FloatValue → FloatValue
  | .nan s p, _ => .nan s p
  | _, .nan s p => .nan s p
  | .infinite s, .infinite t => if s = t then .infinite s else invalid
  | .infinite s, .finite _ _ _ => .infinite s
  | .finite _ _ _, .infinite t => .infinite t
  | .finite s m e, .finite t n g =>
      let scale := min e g
      ofScaledInt (alignedTo scale s m e + alignedTo scale t n g) scale (s && t)

/-- The difference; a NaN operand is passed on as it is. -/
def sub (x : FloatValue) : FloatValue → FloatValue
  | .nan s p => match x with
      | .nan s' p' => .nan s' p'
      | _ => .nan s p
  | y => x.add y.negate

/-- The product. -/
def mul : FloatValue → FloatValue → FloatValue
  | .nan s p, _ => .nan s p
  | _, .nan s p => .nan s p
  | .infinite s, .infinite t => .infinite (s != t)
  | .infinite s, .finite t n _ => if n = 0 then invalid else .infinite (s != t)
  | .finite s m _, .infinite t => if m = 0 then invalid else .infinite (s != t)
  | .finite s m e, .finite t n g => .finite (s != t) (m * n) (e + g)

/-- The quotient, with at least 65 bits before the one that records a rest. -/
def div : FloatValue → FloatValue → FloatValue
  | .nan s p, _ => .nan s p
  | _, .nan s p => .nan s p
  | .infinite _, .infinite _ => invalid
  | .infinite s, .finite t _ _ => .infinite (s != t)
  | .finite s _ _, .infinite t => .finite (s != t) 0 0
  | .finite s m e, .finite t n g =>
      if n = 0 then if m = 0 then invalid else .infinite (s != t)
      else
        let shift : Nat := n.log2 + 66
        let scaled := m * 2 ^ shift
        .finite (s != t) (2 * (scaled / n) + (if scaled % n = 0 then 0 else 1))
          (e - g - shift - 1)

/-- The square root, with at least 66 bits before the one that records a rest. -/
def sqrt : FloatValue → FloatValue
  | .nan s p => .nan s p
  | .infinite s => if s then invalid else .infinite false
  | .finite s m e =>
      if m = 0 then .finite s 0 e
      else if s then invalid
      else
        let shift : Nat := if e % 2 = 0 then 132 else 133
        let scaled := m * 2 ^ shift
        let root := sqrtFloor scaled
        .finite false (2 * root + (if root * root = scaled then 0 else 1))
          ((e - shift) / 2 - 1)

end I860.FloatValue

namespace I860.FloatFormat

variable {w : Nat} (f : FloatFormat w)

/-- The sum rounded to nearest. -/
def add (x y : BitVec w) : BitVec w := f.encode ((f.decode x).add (f.decode y))

/-- The difference rounded to nearest. -/
def sub (x y : BitVec w) : BitVec w := f.encode ((f.decode x).sub (f.decode y))

/-- The product rounded to nearest. -/
def mul (x y : BitVec w) : BitVec w := f.encode ((f.decode x).mul (f.decode y))

/-- `x · y + z` rounded to nearest once. -/
def mulAdd (x y z : BitVec w) : BitVec w :=
  f.encode (((f.decode x).mul (f.decode y)).add (f.decode z))

/-- The quotient rounded to nearest. -/
def div (x y : BitVec w) : BitVec w := f.encode ((f.decode x).div (f.decode y))

/-- The square root rounded to nearest. -/
def sqrt (x : BitVec w) : BitVec w := f.encode (f.decode x).sqrt

/-- The number nearest to a natural number. -/
def ofNat (n : Nat) : BitVec w := f.encode (.finite false n 0)

end I860.FloatFormat
