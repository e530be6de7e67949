/-!
# Machine words

The processor moves bytes, 32-bit words, 64-bit doubles and 128-bit quads, and all its
integer arithmetic is modulo the width. Bit vectors say exactly that, so no wrapping is
written out anywhere else.
-/

namespace I860

abbrev Byte := BitVec 8
abbrev Word := BitVec 32
abbrev Double := BitVec 64
abbrev Quad := BitVec 128

/-- A register number: five bits of an instruction word. -/
abbrev RegNum := Fin 32

-- Numerals, bounds and powers below name these facts, so they elaborate to the same terms
-- whatever else a module imports.
instance RegNum.neZero : @NeZero Nat .ofOfNat0 32 := ⟨by decide⟩

theorem RegNum.val_lt (i : RegNum) : i.val < 32 := i.isLt

attribute [instance (2000), default_instance 20000] instPowNat

/-- The low `bits` bits of `v` as a signed number, in a full word. -/
def signExtendLow (v : Word) (bits : Nat) : Word :=
  (v <<< (32 - bits)).sshiftRight (32 - bits)

/-- The number with bit `n` equal to `b` and all other bits clear. -/
def flagBit (b : Bool) (n : Nat) : Word :=
  (BitVec.ofBool b).setWidth 32 <<< n

/-- The least power of two that is not below `n`, as its exponent. -/
def ceilLog2 (n : Nat) : Nat :=
  if n ≤ 1 then 0 else (n - 1).log2 + 1

/-- Whether `n` is a power of two. -/
def isPowerOfTwo (n : Nat) : Bool :=
  n != 0 && 2 ^ n.log2 == n

end I860
