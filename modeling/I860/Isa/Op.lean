import I860.Isa.Instruction
/-!
# Operations

Decoding has two levels: the primary opcode, and behind the two escapes a sub-opcode. What
neither level lists is an operation of its own, `illegal`, so decoding is total.
-/

namespace I860

/-- What an instruction word asks for. -/
inductive Op where
  | illegal
  | ldInt | stInt | ixfr
  | fld | fst | pfld
  | ldC | stC | flush | pstD
  | bri | trap | lock | calli | intovr | unlock
  | btne | bte | br | call | bc | bcT | bnc | bncT | bla
  | addu | subu | adds | subs
  | shl | shr | shrd | shra
  | and | andh | andnot | andnoth | or | orh | xor | xorh
  | dualOp
  | fmul | fmlow | frcp | frsqr | pfmul3
  | fadd | fsub | fix | famov | pfgt | pfeq | ftrunc
  | fxfr
  | fiadd | fisub | faddp | faddz | fzchkl | form | fzchks
  deriving DecidableEq, Repr

namespace Op

/-- The operation of a primary opcode that is not an escape. -/
def ofPrimary : Nat → Op
  | 0x00 | 0x01 | 0x04 | 0x05 => .ldInt
  | 0x02 => .ixfr
  | 0x03 | 0x07 => .stInt
  | 0x08 | 0x09 => .fld
  | 0x0a | 0x0b => .fst
  | 0x0c => .ldC
  | 0x0d => .flush
  | 0x0e => .stC
  | 0x0f => .pstD
  | 0x10 => .bri
  | 0x11 => .trap
  | 0x14 | 0x15 => .btne
  | 0x16 | 0x17 => .bte
  | 0x18 | 0x19 => .pfld
  | 0x1a => .br
  | 0x1b => .call
  | 0x1c => .bc
  | 0x1d => .bcT
  | 0x1e => .bnc
  | 0x1f => .bncT
  | 0x20 | 0x21 => .addu
  | 0x22 | 0x23 => .subu
  | 0x24 | 0x25 => .adds
  | 0x26 | 0x27 => .subs
  | 0x28 | 0x29 => .shl
  | 0x2a | 0x2b => .shr
  | 0x2c => .shrd
  | 0x2d => .bla
  | 0x2e | 0x2f => .shra
  | 0x30 | 0x31 => .and
  | 0x33 => .andh
  | 0x34 | 0x35 => .andnot
  | 0x37 => .andnoth
  | 0x38 | 0x39 => .or
  | 0x3b => .orh
  | 0x3c | 0x3d => .xor
  | 0x3f => .xorh
  | _ => .illegal

/-- The operation of a sub-opcode of the core escape. -/
def ofCoreEscape : Nat → Op
  | 1 => .lock
  | 2 => .calli
  | 4 => .intovr
  | 7 => .unlock
  | _ => .illegal

/-- The operation of a sub-opcode of the floating-point escape. The first 32 are the dual
operations. -/
def ofFloatEscape : Nat → Op
  | 0x20 => .fmul
  | 0x21 => .fmlow
  | 0x22 => .frcp
  | 0x23 => .frsqr
  | 0x24 => .pfmul3
  | 0x30 => .fadd
  | 0x31 => .fsub
  | 0x32 => .fix
  | 0x33 => .famov
  | 0x34 => .pfgt
  | 0x35 => .pfeq
  | 0x3a => .ftrunc
  | 0x40 => .fxfr
  | 0x49 => .fiadd
  | 0x4d => .fisub
  | 0x50 => .faddp
  | 0x51 => .faddz
  | 0x57 => .fzchkl
  | 0x5a => .form
  | 0x5f => .fzchks
  | n => if n < 0x20 then .dualOp else .illegal

/-- Whether an operation is a branch that runs its delay slot before it goes anywhere. -/
def isDelayedBranch : Op → Bool
  | .br | .call | .calli | .bri | .bla | .bcT | .bncT => true
  | _ => false

end Op

/-- The operation that an instruction word asks for. -/
def Instruction.op (i : Instruction) : Op :=
  if i.primary = Instruction.floatEscape then Op.ofFloatEscape i.floatOpcode
  else if i.primary = Instruction.coreEscape then Op.ofCoreEscape i.coreOpcode
  else Op.ofPrimary i.primary

end I860
