import I860.Control.Psr
/-!
# The graphics unit

Operations on 64-bit operands that hold several pixels or depth values side by side. They are
functions of their operands; the registers MERGE and PM that some of them update are passed
in and out.
-/

namespace I860.Graphics

/-- How an addition goes into MERGE: MERGE moves right by `shift`, and the bits of the sum
that `mask` selects come in. -/
structure MergeRule where
  shift : Nat
  mask : Double
  deriving DecidableEq, Repr

/-- The rule for adding pixels. -/
def pixelRule : PixelSize → MergeRule
  | .bits16 => ⟨6, 0xfc00fc00fc00fc00#64⟩
  | .bits8 | .bits32 => ⟨8, 0xff00ff00ff00ff00#64⟩

/-- The rule for adding depth values. -/
def depthRule : MergeRule := ⟨16, 0xffff0000ffff0000#64⟩

/-- MERGE after a sum was taken in. -/
def MergeRule.apply (rule : MergeRule) (merge sum : Double) : Double :=
  ((merge >>> rule.shift) &&& ~~~rule.mask) ||| (sum &&& rule.mask)

/-- Field `i` of an operand with fields of `width` bits. -/
def field (width : Nat) (v : Double) (i : Nat) : BitVec width := v.extractLsb' (width * i) width

/-- Whether the second operand's field `i` is at least as near as the first's. -/
def secondWins (width : Nat) (x y : Double) (i : Nat) : Bool :=
  (field width y i).ule (field width x i)

/-- An operand with the smaller of two fields in each place. -/
def nearerFields (width count : Nat) (x y : Double) : Double :=
  (List.range count).foldl (fun acc i =>
    let winner := if secondWins width x y i then field width y i else field width x i
    acc ||| (winner.setWidth 64 <<< (width * i))) 0#64

/-- PM after a depth check of `count` fields: it moves right by `count`, and its topmost bits
say for which fields the second operand won. -/
def maskAfterCheck (width count : Nat) (x y : Double) (pm : Byte) : Byte :=
  (List.range count).foldl (fun acc i =>
    acc ||| ((BitVec.ofBool (secondWins width x y i)).setWidth 8 <<< (8 - count + i)))
    (pm >>> count)

/-- The check of four depth values of 16 bits. -/
def depthCheck16 (x y : Double) (pm : Byte) : Double × Byte :=
  (nearerFields 16 4 x y, maskAfterCheck 16 4 x y pm)

/-- The check of two depth values of 32 bits. -/
def depthCheck32 (x y : Double) (pm : Byte) : Double × Byte :=
  (nearerFields 32 2 x y, maskAfterCheck 32 2 x y pm)

/-- The bytes of a double that a pixel store writes: those of the pixels whose bit of PM is
set. -/
def storeMask (size : PixelSize) (pm : Byte) : Byte :=
  let bytes := 8 / size.perDouble
  (List.range size.perDouble).foldl (fun acc i =>
    if pm.getLsbD i then acc ||| (BitVec.ofNat 8 (2 ^ bytes - 1) <<< (bytes * i)) else acc) 0#8

end I860.Graphics
