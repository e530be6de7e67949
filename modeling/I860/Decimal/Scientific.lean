import I860.Decimal.Shortest
/-!
# Scientific notation

A number as a decimal with one digit before the point and an exponent of ten. The digits are
the shortest that read back; a point is written only if a digit follows it, and the exponent
has a sign only if it is negative.
-/

namespace I860.Decimal

/-- The digits of a number without the zeros at its end. -/
def significantDigits (n : Nat) : List Char :=
  ((Nat.toDigits 10 n).reverse.dropWhile (· == '0')).reverse

/-- `digits · 10 ^ exponent` in scientific notation. -/
def Digits.scientific (d : Digits) : String :=
  let all := Nat.toDigits 10 d.digits
  let exponent := d.exponent + (all.length - 1 : Nat)
  let mantissa :=
    match significantDigits d.digits with
    | [] => "0"
    | c :: [] => String.singleton c
    | c :: rest => String.singleton c ++ "." ++ String.ofList rest
  mantissa ++ "e" ++ toString exponent

/-- A 64-bit number in scientific notation. -/
def scientific (x : Double) : String :=
  let sign (negative : Bool) := if negative then "-" else ""
  match binary64.decode x with
  | .nan _ _ => "NaN"
  | .infinite negative => sign negative ++ "inf"
  | .finite negative significand scale =>
      sign negative
        ++ (if significand = 0 then "0e0" else (shortest significand scale).scientific)

end I860.Decimal
