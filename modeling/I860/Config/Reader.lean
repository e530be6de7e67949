import I860.Config.Basic
import I860.Config.Json
/-!
# Reading configurations

A configuration is a JSON object with an object for each section. What is not mentioned has
its default, and what is not known is passed over, but a setting that is mentioned twice is
an error. A section, and the whole, may also be written as an array of the settings in their
order, cut off anywhere.
-/

namespace I860.Config

/-- What a document says for each of the given names: as members of an object, or by position
in an array. -/
def settings? (names : List String) : Json → Option (List (Option Json))
  | .array items =>
      if items.length ≤ names.length then
        some (items.map some ++ List.replicate (names.length - items.length) none)
      else none
  | .object members =>
      let keys := members.filterMap (·.1)
      if keys.length < members.length then none
      else if names.any fun name => 1 < (keys.filter (· == name)).length then none
      else some (names.map fun name => (members.find? (·.1 == some name)).map (·.2))
  | _ => none

/-- A natural number of the given number of bits. -/
def natural? (bits : Nat) : Json → Option Nat
  | .number (some n) => if n < 2 ^ bits then some n else none
  | _ => none

def word? (bits : Nat) (json : Json) : Option (BitVec bits) :=
  (natural? bits json).map (BitVec.ofNat bits)

def bool? : Json → Option Bool
  | .bool b => some b
  | _ => none

/-- A setting that may be missing. -/
def orDefault {α : Type} (read : Json → Option α) (otherwise : α) : Option Json → Option α
  | some json => read json
  | none => some otherwise

def general? (json : Json) : Option GeneralConfig := do
  match ← settings? ["trace_instructions", "start_pc"] json with
  | [trace, startPc] =>
      return {
        traceInstructions := ← orDefault bool? default.general.traceInstructions trace
        startPc := ← orDefault (word? 32) default.general.startPc startPc }
  | _ => none

def core? (json : Json) : Option CoreConfig := do
  match ← settings? ["icache_lines", "tlb_sets", "trap_misaligned", "fp_source_exception_traps",
      "undefined_pattern", "processor_type", "stepping"] json with
  | [icacheLines, tlbSets, misaligned, sourceException, pattern, processorType, stepping] =>
      return {
        icacheLines := ← orDefault (natural? 64) default.core.icacheLines icacheLines
        tlbSets := ← orDefault (natural? 64) default.core.tlbSets tlbSets
        trapMisaligned := ← orDefault bool? default.core.trapMisaligned misaligned
        sourceExceptionTraps :=
          ← orDefault bool? default.core.sourceExceptionTraps sourceException
        undefinedPattern := ← orDefault (word? 32) default.core.undefinedPattern pattern
        processorType := ← orDefault (word? 8) default.core.processorType processorType
        stepping := ← orDefault (word? 8) default.core.stepping stepping }
  | _ => none

def run? (json : Json) : Option RunConfig := do
  match ← settings? ["batch_size", "halt_poll_ms"] json with
  | [batchSize, haltPollMs] =>
      return {
        batchSize := ← orDefault (natural? 32) default.run.batchSize batchSize
        haltPollMs := ← orDefault (natural? 64) default.run.haltPollMs haltPollMs }
  | _ => none

def memory? (json : Json) : Option MemoryConfig := do
  match ← settings? ["ram_base", "ram_size"] json with
  | [ramBase, ramSize] =>
      return {
        ramBase := ← orDefault (word? 32) default.memory.ramBase ramBase
        ramSize := ← orDefault (natural? 64) default.memory.ramSize ramSize }
  | _ => none

/-- The configuration that a document describes, whether or not its settings are in range. -/
def ofJson? (json : Json) : Option Config := do
  match ← settings? ["general", "core", "run", "memory"] json with
  | [general, core, run, memory] =>
      return {
        general := ← orDefault general? default.general general
        core := ← orDefault core? default.core core
        run := ← orDefault run? default.run run
        memory := ← orDefault memory? default.memory memory }
  | _ => none

/-- The configuration that a text describes. -/
def ofText (text : String) : Except HostError Config :=
  match (Json.ofString? text).bind ofJson? with
  | some c => c.validate
  | none => .error .configSyntax

/-- The configuration that the contents of a file describe. -/
def ofFile (contents : Except FileProblem ByteArray) : Except HostError Config :=
  match contents with
  | .error problem => .error (.file problem.message)
  | .ok bytes =>
      match String.fromUTF8? bytes with
      | some text => ofText text
      | none => .error (.file FileProblem.notText.message)

end I860.Config
