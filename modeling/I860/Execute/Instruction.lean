import I860.Execute.Branch
import I860.Execute.Control
import I860.Execute.DualOperation
import I860.Execute.Integer
import I860.Execute.LoadStore
import I860.Execute.Pixel
import I860.Isa.Op
/-!
# Executing an instruction

One case for every operation. `slot` is what a delayed branch runs before it goes anywhere.
-/

namespace I860

open Execute

/-- Executes one instruction. -/
def execute {β : Type} [Bus β] (slot : Exec β Unit) (i : Instruction) : Exec β Unit :=
  match i.op with
  | .illegal => raise .instruction
  | .ldInt => ldInt i
  | .stInt => stInt i
  | .ixfr => modify (ixfr i)
  | .fld => fld i
  | .fst => fst i
  | .pfld => pfld i
  | .pstD => pstD i
  | .flush => modify (flush i)
  | .ldC => modify (ldC i)
  | .stC => modify (stC i)
  | .trap => raise .instruction
  | .intovr => intovr
  | .lock => pure ()
  | .unlock => pure ()
  | .bri => bri slot i
  | .calli => calli slot i
  | .bte => modify (bte true i)
  | .btne => modify (bte false i)
  | .br => br slot i
  | .call => call slot i
  | .bc => modify (bc true i)
  | .bcT => bcT true slot i
  | .bnc => modify (bc false i)
  | .bncT => bcT false slot i
  | .bla => bla slot i
  | .addu => modify (arith .addu i)
  | .subu => modify (arith .subu i)
  | .adds => modify (arith .adds i)
  | .subs => modify (arith .subs i)
  | .shl => modify (shift .shl i)
  | .shr => modify (shift .shr i)
  | .shra => modify (shift .shra i)
  | .shrd => modify (shiftPair i)
  | .and => modify (logic .and false i)
  | .andh => modify (logic .and true i)
  | .andnot => modify (logic .andnot false i)
  | .andnoth => modify (logic .andnot true i)
  | .or => modify (logic .or false i)
  | .orh => modify (logic .or true i)
  | .xor => modify (logic .xor false i)
  | .xorh => modify (logic .xor true i)
  | .dualOp => dualOp i
  | .fmul => fmul i
  | .pfmul3 => pfmul3 i
  | .fmlow => fmlow i
  | .frcp => reciprocal false i
  | .frsqr => reciprocal true i
  | .fadd => fadd i
  | .fsub => fsub i
  | .fix => modify (fix false i)
  | .ftrunc => modify (fix true i)
  | .famov => famov i
  | .pfgt => modify (pfgt i)
  | .pfeq => modify (pfeq i)
  | .fxfr => modify (fxfr i)
  | .fiadd => modify (integerSum false i)
  | .fisub => modify (integerSum true i)
  | .faddp => modify (faddp i)
  | .faddz => modify (faddz i)
  | .form => modify (form i)
  | .fzchkl => modify (depthCheck true i)
  | .fzchks => modify (depthCheck false i)

end I860
