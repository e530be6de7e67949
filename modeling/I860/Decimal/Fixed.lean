import I860.Float.Format
import I860.Text.Hex
/-!
# Fixed decimal places

A number with a set count of digits after the point. The exact value of the number is
rounded, not one of its decimal forms, and an exact half goes to the even digit.
-/

namespace I860.Decimal

/-- `n` with the point before its last `places` digits. -/
def withPoint (places n : Nat) : String :=
  let digits := (Text.padLeft '0' (places + 1) (toString n)).toList
  let whole := String.ofList (digits.take (digits.length - places))
  if places = 0 then whole else whole ++ "." ++ String.ofList (digits.drop (digits.length - places))

/-- A 64-bit number with `places` digits after the point. -/
def fixed (places : Nat) (x : Double) : String :=
  let sign (negative : Bool) := if negative then "-" else ""
  match binary64.decode x with
  | .nan _ _ => "NaN"
  | .infinite negative => sign negative ++ "inf"
  | .finite negative significand scale =>
      sign negative ++ withPoint places (scaleNearestEven (significand * 10 ^ places) scale)

end I860.Decimal
