import I860.Word
/-!
# Rounding modes

The two-bit field of the floating-point status register that chooses how results are
rounded.
-/

namespace I860

/-- How an inexact result is rounded. -/
inductive RoundingMode where
  /-- To the nearest number, a tie to the even one. -/
  | nearest
  /-- Towards minus infinity. -/
  | down
  /-- Towards plus infinity. -/
  | up
  /-- Towards zero. -/
  | zero
  deriving DecidableEq, Repr

namespace RoundingMode

/-- The mode that a field value selects. -/
def ofField (field : BitVec 2) : RoundingMode :=
  if field = 0#2 then .nearest else if field = 1#2 then .down
  else if field = 2#2 then .up else .zero

/-- The field value of a mode. -/
def field : RoundingMode → BitVec 2
  | .nearest => 0#2
  | .down => 1#2
  | .up => 2#2
  | .zero => 3#2

theorem ofField_field (m : RoundingMode) : ofField m.field = m := by
  cases m <;> rfl

end RoundingMode

end I860
