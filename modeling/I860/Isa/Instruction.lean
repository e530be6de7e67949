import I860.Word
import I860.Text.Hex
/-!
# Instruction words

Every instruction is one word with its fields in fixed places:

    31-26 primary opcode   25-21 src2   20-16 dest   15-11 src1   15-0 immediate

The floating-point escape has the flags P, D, S and R in bits 10 to 7 and a sub-opcode below
them. Stores and compare-and-branch instructions have no use for `dest`, and keep the upper
bits of their offset there.
-/

namespace I860

/-- An instruction word. -/
structure Instruction where
  raw : Word
  deriving DecidableEq, Repr

namespace Instruction

/-- The primary opcode of the floating-point escape. -/
def floatEscape : Nat := 0x12

/-- The primary opcode of the core escape. -/
def coreEscape : Nat := 0x13

/-- The core no-operation that asks for dual-instruction mode. -/
def dualNop : Instruction := ⟨0xb0000200#32⟩

/-- The register number in bits `low` to `low + 4`. -/
def regField (i : Instruction) (low : Nat) : RegNum :=
  ⟨(i.raw.extractLsb' low 5).toNat, (i.raw.extractLsb' low 5).isLt⟩

def primary (i : Instruction) : Nat := (i.raw >>> 26).toNat

def src1 (i : Instruction) : RegNum := i.regField 11

def src2 (i : Instruction) : RegNum := i.regField 21

def dest (i : Instruction) : RegNum := i.regField 16

/-- The immediate, extended with zeros. -/
def imm16 (i : Instruction) : Word := i.raw &&& 0xffff#32

/-- The immediate, extended with its sign. -/
def signedImm16 (i : Instruction) : Word := signExtendLow i.raw 16

/-- Whether `src1` is an immediate, or a load has a displacement. -/
def hasImmediate (i : Instruction) : Bool := i.raw.getLsbD 26

/-- The offset whose upper bits are in the place of `dest`, extended with its sign. -/
def splitOffset (i : Instruction) : Word :=
  signExtendLow (((i.raw >>> 5) &&& 0xf800#32) ||| (i.raw &&& 0x7ff#32)) 16

/-- The offset of a long branch in words, extended with its sign. -/
def branchOffset (i : Instruction) : Word := signExtendLow (i.raw &&& 0x03ffffff#32) 26

/-- Whether a floating load or store writes its address back to the base register. -/
def autoIncrement (i : Instruction) : Bool := i.raw.getLsbD 0

/-- Flag P: the instruction is pipelined. -/
def pipelined (i : Instruction) : Bool := i.raw.getLsbD 10

/-- Flag D: the instruction asks for dual-instruction mode. -/
def dualFlag (i : Instruction) : Bool := i.raw.getLsbD 9

/-- Flag S: the sources are double. -/
def doubleSource (i : Instruction) : Bool := i.raw.getLsbD 8

/-- Flag R: the result is double. -/
def doubleResult (i : Instruction) : Bool := i.raw.getLsbD 7

/-- The sub-opcode of the floating-point escape. -/
def floatOpcode (i : Instruction) : Nat := (i.raw &&& 0x7f#32).toNat

/-- The sub-opcode of the core escape. -/
def coreOpcode (i : Instruction) : Nat := (i.raw &&& 0x7#32).toNat

/-- The row of the routing table that a dual operation uses. -/
def routeField (i : Instruction) : Fin 16 :=
  ⟨(i.raw.extractLsb' 0 4).toNat, (i.raw.extractLsb' 0 4).isLt⟩

/-- Whether the low half of a pair with this word asks for dual-instruction mode. -/
def asksForDual (i : Instruction) : Bool :=
  (i.primary == floatEscape && i.dualFlag) || i == dualNop

/-- Primary opcode and sub-opcode as one number, below 8192. -/
def opcodeIndex (i : Instruction) : Nat := i.primary * 128 + i.floatOpcode

def text (i : Instruction) : String := Text.hexOf i.raw

end Instruction

end I860
