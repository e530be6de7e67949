import I860.Isa.Op
import I860.Isa.Route
/-!
# Listings

The text of an instruction: mnemonic, operands, and for branches the address they go to from
where they stand. A displacement is shown with the low bits cleared that the access ignores,
so the text says which address is formed.
-/

namespace I860.Listing

def intReg (r : RegNum) : String := "r" ++ toString r.val

def floatReg (r : RegNum) : String := "f" ++ toString r.val

/-- The name of a control register by its number. -/
def controlName (r : RegNum) : String :=
  (["fir", "psr", "dirbase", "db", "fsr", "epsr"][r.val]?).getD "?"

/-- A displacement in decimal, with the low bits cleared that `align` leaves out. -/
def displacement (offset align : Word) : String := toString (offset &&& align).toInt

/-- The ending that shows the precision of sources and result. -/
def precision (i : Instruction) : String :=
  match i.doubleSource, i.doubleResult with
  | false, false => ".ss"
  | false, true => ".sd"
  | true, false => ".ds"
  | true, true => ".dd"

/-- The ending that shows the size of an integer access, and the address bits it uses. -/
def intSize (i : Instruction) : String × Word :=
  match i.raw.getLsbD 28, i.raw.getLsbD 0 with
  | false, _ => (".b", 0xffffffff#32)
  | true, false => (".s", 0xfffffffe#32)
  | true, true => (".l", 0xfffffffc#32)

/-- The ending that shows the size of a floating access, and the address bits it uses. -/
def floatSize (i : Instruction) : String × Word :=
  match i.raw.getLsbD 2, i.raw.getLsbD 1 with
  | false, false => (".d", 0xfffffff8#32)
  | true, false => (".q", 0xfffffff0#32)
  | _, true => (".l", 0xfffffffc#32)

/-- The address that a branch at `pc` goes to. -/
def branchTarget (pc offset : Word) : String := Text.markedHexOf (pc + 4#32 + (offset <<< 2))

/-- The mnemonic of an integer operation. -/
def intName : Op → String
  | .addu => "addu"
  | .subu => "subu"
  | .adds => "adds"
  | .subs => "subs"
  | .shl => "shl"
  | .shr => "shr"
  | .shrd => "shrd"
  | .shra => "shra"
  | .and => "and"
  | .andh => "andh"
  | .andnot => "andnot"
  | .andnoth => "andnoth"
  | .or => "or"
  | .orh => "orh"
  | .xor => "xor"
  | .xorh => "xorh"
  | _ => "?"

/-- The mnemonic of a floating-point operation in its scalar form. -/
def floatName (op : Op) (i : Instruction) : String :=
  match op with
  | .fmul => "fmul"
  | .fmlow => "fmlow"
  | .frcp => "frcp"
  | .frsqr => "frsqr"
  | .pfmul3 => "pfmul3"
  | .fadd => "fadd"
  | .fsub => "fsub"
  | .fix => "fix"
  | .famov => "famov"
  | .pfgt => if i.doubleResult then "pfle" else "pfgt"
  | .pfeq => "pfeq"
  | .ftrunc => "ftrunc"
  | .fxfr => "fxfr"
  | .fiadd => "fiadd"
  | .fisub => "fisub"
  | .faddp => "faddp"
  | .faddz => "faddz"
  | .fzchkl => "fzchkl"
  | .form => "form"
  | .fzchks => "fzchks"
  | .dualOp =>
      match i.pipelined, i.raw.getLsbD 4 with
      | true, false => "pfam"
      | true, true => "pfsm"
      | false, false => "pfmam"
      | false, true => "pfmsm"
  | _ => "?"

/-- Whether the mnemonic of an operation is the same with and without flag P. -/
def nameCoversPipelined : Op → Bool
  | .dualOp | .pfgt | .pfeq | .pfmul3 => true
  | _ => false

/-- The mnemonic of a floating-point instruction: pipelined forms begin with `pf`. -/
def floatMnemonic (op : Op) (i : Instruction) : String :=
  let name := floatName op i
  (if i.dualFlag then "d." else "") ++
    (if i.pipelined && !nameCoversPipelined op then
      "pf" ++ String.ofList (name.toList.drop 1) else name)

/-- The text of a floating-point instruction. -/
def float (op : Op) (i : Instruction) : String :=
  let name := floatMnemonic op i
  let three := floatReg i.src1 ++ "," ++ floatReg i.src2 ++ "," ++ floatReg i.dest
  match op with
  | .fxfr => name ++ " " ++ floatReg i.src1 ++ "," ++ intReg i.dest
  | .frcp | .frsqr => name ++ precision i ++ " " ++ floatReg i.src2 ++ "," ++ floatReg i.dest
  | .dualOp => name ++ precision i ++ " " ++ three ++ " ; " ++ i.route.name
  | _ => name ++ precision i ++ " " ++ three

/-- The address operand of a floating load or store. -/
def floatAddress (i : Instruction) : String :=
  (if i.hasImmediate then displacement i.signedImm16 (floatSize i).2 else intReg i.src1)
    ++ "(" ++ intReg i.src2 ++ ")" ++ (if i.autoIncrement then "++" else "")

/-- The text of an integer operation. -/
def integer (op : Op) (i : Instruction) : String :=
  if i = Instruction.dualNop then "d.fnop"
  else
    let first :=
      if i.hasImmediate && op != .shrd then "0x" ++ Text.hexDigits i.imm16.toNat
      else intReg i.src1
    intName op ++ " " ++ first ++ "," ++ intReg i.src2 ++ "," ++ intReg i.dest

/-- The text of a compare-and-branch instruction. -/
def compareBranch (name : String) (pc : Word) (i : Instruction) : String :=
  name ++ " " ++ (if i.hasImmediate then toString i.src1.val else intReg i.src1) ++ ","
    ++ intReg i.src2 ++ "," ++ branchTarget pc i.splitOffset

/-- The text of the instruction at `pc`. -/
def text (pc : Word) (i : Instruction) : String :=
  match i.op with
  | .illegal => ".long " ++ Text.markedHexOf i.raw
  | .ldInt =>
      let (size, align) := intSize i
      "ld" ++ size ++ " "
        ++ (if i.hasImmediate then displacement i.signedImm16 align else intReg i.src1)
        ++ "(" ++ intReg i.src2 ++ ")," ++ intReg i.dest
  | .stInt =>
      let (size, align) := intSize i
      "st" ++ size ++ " " ++ intReg i.src1 ++ "," ++ displacement i.splitOffset align
        ++ "(" ++ intReg i.src2 ++ ")"
  | .fld => "fld" ++ (floatSize i).1 ++ " " ++ floatAddress i ++ "," ++ floatReg i.dest
  | .pfld => "pfld" ++ (floatSize i).1 ++ " " ++ floatAddress i ++ "," ++ floatReg i.dest
  | .fst => "fst" ++ (floatSize i).1 ++ " " ++ floatReg i.dest ++ "," ++ floatAddress i
  | .pstD =>
      "pst.d " ++ floatReg i.dest ++ "," ++ displacement i.signedImm16 0xfffffff8#32
        ++ "(" ++ intReg i.src2 ++ ")"
  | .ixfr => "ixfr " ++ intReg i.src1 ++ "," ++ floatReg i.dest
  | .ldC => "ld.c " ++ controlName i.src2 ++ "," ++ intReg i.dest
  | .stC => "st.c " ++ intReg i.src1 ++ "," ++ controlName i.src2
  | .flush => "flush " ++ displacement i.signedImm16 0xfffffff0#32 ++ "(" ++ intReg i.src2 ++ ")"
  | .bri => "bri " ++ intReg i.src1
  | .trap => "trap " ++ intReg i.src1 ++ "," ++ intReg i.src2 ++ "," ++ intReg i.dest
  | .lock => "lock"
  | .unlock => "unlock"
  | .intovr => "intovr"
  | .calli => "calli " ++ intReg i.src1
  | .bte => compareBranch "bte" pc i
  | .btne => compareBranch "btne" pc i
  | .br => "br " ++ branchTarget pc i.branchOffset
  | .call => "call " ++ branchTarget pc i.branchOffset
  | .bc => "bc " ++ branchTarget pc i.branchOffset
  | .bcT => "bc.t " ++ branchTarget pc i.branchOffset
  | .bnc => "bnc " ++ branchTarget pc i.branchOffset
  | .bncT => "bnc.t " ++ branchTarget pc i.branchOffset
  | .bla =>
      "bla " ++ intReg i.src1 ++ "," ++ intReg i.src2 ++ "," ++ branchTarget pc i.splitOffset
  | .addu | .subu | .adds | .subs | .shl | .shr | .shrd | .shra | .and | .andh | .andnot
  | .andnoth | .or | .orh | .xor | .xorh => integer i.op i
  | op => float op i

end I860.Listing
