import I860.Word
/-!
# Integer arithmetic

The operations of the integer unit as functions of their two operands, each with the flags
that it defines. Operands are in assembler order: the result of a subtraction is the first
less the second, and a shift moves the second by the first.
-/

namespace I860

/-- An operation of the integer unit. -/
inductive AluOp where
  | addu | subu | adds | subs
  | and | andnot | or | xor
  | shl | shr | shra
  deriving DecidableEq, Repr

/-- A result with the flags that go with it; `none` leaves a flag as it is. -/
structure AluResult where
  value : Word
  /-- The condition code. -/
  cc : Option Bool
  /-- The overflow flag. -/
  of : Option Bool
  deriving DecidableEq, Repr

namespace Alu

/-- The result of an operation that a part of the unit does not know. -/
def nothing : AluResult := ⟨0#32, none, none⟩

/-- Sums and differences. The signed condition code compares the operands: for a difference
the two words, for a sum the second with the first negated. So it is the sign of the exact
result even where that overflows, unless the first summand is the least word, whose negation
wraps. -/
def arithmetic (op : AluOp) (x y : Word) : AluResult :=
  match op with
  | .addu =>
      let carry := BitVec.uaddOverflow x y
      ⟨x + y, some carry, some carry⟩
  | .subu =>
      let fits := y.ule x
      ⟨x - y, some fits, some (!fits)⟩
  | .adds =>
      let value := x + y
      ⟨value, some (y.slt (-x)), some (x.msb == y.msb && x.msb != value.msb)⟩
  | .subs =>
      let value := x - y
      ⟨value, some (x.slt y), some (x.msb != y.msb && x.msb != value.msb)⟩
  | _ => nothing

/-- Bitwise operations; the condition code says that the result is zero. -/
def logic (op : AluOp) (x y : Word) : AluResult :=
  let result (value : Word) : AluResult := ⟨value, some (value == 0#32), none⟩
  match op with
  | .and => result (x &&& y)
  | .andnot => result (~~~x &&& y)
  | .or => result (x ||| y)
  | .xor => result (x ^^^ y)
  | _ => nothing

/-- The low five bits of a shift count. -/
def shiftCount (x : Word) : BitVec 5 := x.setWidth 5

/-- Shifts of `y` by the low five bits of `x`. -/
def shift (op : AluOp) (x y : Word) : Word :=
  let count := (shiftCount x).toNat
  match op with
  | .shl => y <<< count
  | .shr => y >>> count
  | .shra => y.sshiftRight count
  | _ => 0#32

/-- The low word of the pair `high`, `low` shifted right. -/
def shiftPair (high low : Word) (count : BitVec 5) : Word :=
  if count = 0#5 then low
  else (low >>> count.toNat) ||| (high <<< (32 - count.toNat))

/-- Any operation of the integer unit. -/
def execute (op : AluOp) (x y : Word) : AluResult :=
  match op with
  | .addu | .subu | .adds | .subs => arithmetic op x y
  | .and | .andnot | .or | .xor => logic op x y
  | .shl | .shr | .shra => ⟨shift op x y, none, none⟩

end Alu

end I860
