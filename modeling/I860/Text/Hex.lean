/-!
# Hexadecimal text

Addresses and register contents are written in lower-case hexadecimal, filled up with
zeros to the width of the word. Counts and register numbers are lined up in columns, so
padding with blanks lives here too. Reading takes the digits of any base up to 36, and
letters of either case.
-/

namespace I860.Text

/-- `s` filled up with `c` on the left to at least `width` characters. -/
def padLeft (c : Char) (width : Nat) (s : String) : String :=
  String.ofList (List.replicate (width - s.length) c) ++ s

/-- `s` filled up with blanks on the right to at least `width` characters. -/
def padRight (width : Nat) (s : String) : String :=
  s ++ String.ofList (List.replicate (width - s.length) ' ')

/-- The lower-case hexadecimal digits of `n`, at least one. -/
def hexDigits (n : Nat) : String :=
  String.ofList (Nat.toDigits 16 n)

/-- `n` in hexadecimal with at least `width` digits. -/
def hex (width n : Nat) : String :=
  padLeft '0' width (hexDigits n)

/-- A bit vector in hexadecimal, one digit for every four bits of its width. -/
def hexOf {w : Nat} (v : BitVec w) : String :=
  hex ((w + 3) / 4) v.toNat

/-- The value of a digit; letters of either case stand for the digits from ten on. -/
def digit? (base : Nat) (c : Char) : Option Nat :=
  let value? :=
    if '0' ≤ c ∧ c ≤ '9' then some (c.toNat - '0'.toNat)
    else if 'a' ≤ c ∧ c ≤ 'z' then some (c.toNat - 'a'.toNat + 10)
    else if 'A' ≤ c ∧ c ≤ 'Z' then some (c.toNat - 'A'.toNat + 10)
    else none
  value?.filter (· < base)

/-- The number that digits stand for, the first counting most; no digits stand for zero. -/
def ofDigits? (base : Nat) (digits : List Char) : Option Nat :=
  digits.foldlM (fun acc c => (digit? base c).map (acc * base + ·)) 0

/-- Bytes written with two digits each. -/
def bytes? : List Char → Option (List (BitVec 8))
  | a :: b :: rest => do
      let value ← ofDigits? 16 [a, b]
      return BitVec.ofNat 8 value :: (← bytes? rest)
  | [] => some []
  | [_] => none

/-- A bit vector as `hexOf` writes it, marked as hexadecimal. -/
def markedHexOf {w : Nat} (v : BitVec w) : String :=
  "0x" ++ hexOf v

end I860.Text
