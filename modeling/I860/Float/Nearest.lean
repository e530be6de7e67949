import I860.Word
/-!
# Nearest integers

Every rounding to nearest, binary or decimal, comes down to one question: which integer is
nearest to a quotient of two naturals, and an exact half goes to the even one.
-/

namespace I860

/-- The integer nearest to `n / d`, of two equally near ones the even one. -/
def divNearestEven (n d : Nat) : Nat :=
  let quotient := n / d
  let rest := n % d
  if 2 * rest > d ∨ (2 * rest = d ∧ quotient % 2 = 1) then quotient + 1 else quotient

/-- The least integer that is not below `n / d`. -/
def divCeil (n d : Nat) : Nat :=
  if n % d = 0 then n / d else n / d + 1

/-- `m · 2 ^ k` as an integer, rounded to nearest where `k` is negative. -/
def scaleNearestEven (m : Nat) (k : Int) : Nat :=
  if 0 ≤ k then m * 2 ^ k.toNat else divNearestEven m (2 ^ (-k).toNat)

/-- The search for a square root: `r` is right in all bits above the lowest `k`. -/
def sqrtFloorFrom (n : Nat) : (k : Nat) → (r : Nat) → Nat
  | 0, r => r
  | k + 1, r => if (r + 2 ^ k) * (r + 2 ^ k) ≤ n then sqrtFloorFrom n k (r + 2 ^ k)
      else sqrtFloorFrom n k r

/-- The greatest integer whose square is not above `n`. -/
def sqrtFloor (n : Nat) : Nat := sqrtFloorFrom n (n.log2 / 2 + 1) 0

end I860
