import I860.Board.Ram
import I860.Registers.File
/-!
# The self-test

Before a processor is handed out, a few facts that everything rests on are tried once: that
registers keep what is written, which lane of a double is the upper one, and how either byte
order lays out an operand. On a sound build none of the checks can fail, which `selfTest_eq`
records.
-/

namespace I860

/-- A fact that the self-test tries. -/
inductive SelfCheck where
  | intRegisters
  | doubleLanes
  | singleRegisters
  | littleEndian
  | bigEndian
  deriving DecidableEq, Repr

namespace SelfCheck

/-- All checks in the order in which they are tried. -/
def all : List SelfCheck :=
  [.intRegisters, .doubleLanes, .singleRegisters, .littleEndian, .bigEndian]

def name : SelfCheck → String
  | .intRegisters => "integer register round-trip"
  | .doubleLanes => "double lane order"
  | .singleRegisters => "single register round-trip"
  | .littleEndian => "little-endian bus order"
  | .bigEndian => "big-endian bus order"

/-- A small bank of memory for the checks of the byte orders. -/
def scratch : Ram := Ram.zeroed 0#32 16

/-- Whether the fact holds. -/
def holds : SelfCheck → Bool
  | .intRegisters =>
      let ints := IntRegs.zero.write 5 0xa5a55a5a#32
      ints.read 5 == 0xa5a55a5a#32 && ints.read 0 == 0#32
  | .doubleLanes =>
      let floats := FloatRegs.zero.writePair 4 0x3ff8000000000000#64
      floats.readLane 4 == 0#32 && floats.readLane 5 == 0x3ff80000#32
  | .singleRegisters =>
      let floats := FloatRegs.zero.writeLane 7 0xc0000000#32
      floats.readLane 7 == 0xc0000000#32 && floats.readPair 0 == 0#64
  | .littleEndian =>
      Bus.readBytes (Bus.storeWord .little scratch 0#32 0x01020304#32) 0#32 4 == [4, 3, 2, 1]
  | .bigEndian =>
      let stored := Bus.store .big scratch 8#32 .double 0x0102030405060708#128
      Bus.readByte stored 8#32 == 1 &&
        Bus.load .big stored 8#32 .double == 0x0102030405060708#128

end SelfCheck

/-- Fails with the name of the first check that does. -/
def selfTest : Except HostError Unit :=
  match SelfCheck.all.find? fun check => !check.holds with
  | some check => .error (.selfTest check.name)
  | none => .ok ()

theorem SelfCheck.holds_eq_true (check : SelfCheck) : check.holds = true := by
  cases check <;> decide +kernel

theorem selfTest_eq : selfTest = .ok () := by
  have none_fails : (SelfCheck.all.find? fun check => !check.holds) = none := by
    simp [SelfCheck.holds_eq_true]
  simp [selfTest, none_fails]

end I860
