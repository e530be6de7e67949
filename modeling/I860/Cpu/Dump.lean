import I860.Cpu.Fetch
/-!
# Dumps

The state of a processor as text, for a person who debugs a program on it. A dump looks and
does not touch: the next instruction is shown only if the instruction cache has it.
-/

namespace I860

/-- The first stages of a pipe on one line, under the letter of the pipe. -/
def Pipe.dump (p : Pipe) (letter : String) (stages : Nat) : String :=
  letter ++ ":" ++
    String.join ((p.stages.take stages).zipIdx.map fun (slot, stage) =>
      " [" ++ toString stage ++ "]" ++ slot.text) ++ "\n"

namespace Cpu

variable {β : Type}

/-- The instruction at the program counter, as far as the instruction cache knows it. -/
def nextInstruction? (c : Cpu β) : Option Instruction :=
  (c.icache.peek c.pc).map fun pair => ⟨wordOfPair c.pc pair⟩

/-- The program counter and the modes, on one line. -/
def dumpPlace (c : Cpu β) : String :=
  "pc=" ++ Text.markedHexOf c.pc ++ " dim=" ++ c.dual.name
    ++ " dim_cc=" ++ (if c.compareCode then "1" else "0")
    ++ (if c.comparePending then " (valid)" else "")
    ++ " byte_order=" ++ c.order.name ++ "\n"

/-- The next instruction on one line, or nothing. -/
def dumpNext (c : Cpu β) : String :=
  match c.nextInstruction? with
  | none => ""
  | some i =>
      let text := match c.listing with
        | some write => write c.pc i
        | none => ""
      "next: " ++ Text.hexOf i.raw ++ " " ++ text ++ "\n"

/-- Everything that a program could see, as text. -/
def dump (c : Cpu β) : String :=
  c.dumpPlace ++ c.dumpNext ++ c.control.dump ++ c.regs.dump
    ++ c.adder.dump "A" 3 ++ c.multiplier.dump "M" 3 ++ c.loads.dump "L" 3
    ++ c.graphics.dump "I" 1

/-- A few words on a processor, for messages. -/
def summary [Bus β] (c : Cpu β) : String :=
  "Cpu \x7b pc: " ++ Text.markedHexOf c.pc ++ ", dim: " ++ c.dual.name
    ++ ", psr: " ++ Text.markedHexOf c.control.psr.bits
    ++ ", bus: \"" ++ Bus.name c.board ++ "\", byte_order: " ++ c.order.name ++ ", .. \x7d"

end Cpu

/-- A byte order in messages. -/
def ByteOrder.summary (order : ByteOrder) : String :=
  "BusTable \x7b order: " ++ order.name ++ " \x7d"

end I860
