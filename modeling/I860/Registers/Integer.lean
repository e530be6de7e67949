import I860.Text.Hex
import I860.Word
/-!
# Integer registers

Thirty-two words, of which register 0 reads as zero and ignores what is written to it.
-/

namespace I860

/-- The integer registers. -/
structure IntRegs where
  words : Vector Word 32
  deriving DecidableEq, Repr

namespace IntRegs

/-- All registers zero. -/
def zero : IntRegs := ⟨Vector.replicate 32 0#32⟩

def read (r : IntRegs) (i : RegNum) : Word := if i = 0 then 0#32 else r.words.get i

def write (r : IntRegs) (i : RegNum) (v : Word) : IntRegs :=
  if i = 0 then r else ⟨r.words.set i v i.val_lt⟩

/-- The contents after a reset: each register but 0 holds the pattern joined with its
number. -/
def undefinedFill (pattern : Word) : IntRegs :=
  ⟨Vector.ofFn fun i => if i = (0 : RegNum) then 0#32 else pattern ||| BitVec.ofNat 32 i⟩

/-- All registers, four to a line. -/
def dump (r : IntRegs) : String :=
  String.join <| (List.finRange 32).map fun i =>
    "r" ++ Text.padRight 2 (toString i.val) ++ "=" ++ Text.hexOf (r.read i) ++ " "
      ++ (if i.val % 4 = 3 then "\n" else "")

end IntRegs

end I860
