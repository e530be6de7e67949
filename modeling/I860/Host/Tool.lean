import I860.Config.Reader
import I860.Cpu.Dump
import I860.Cpu.Report
import I860.Host.Arguments
import I860.Host.Run
/-!
# The command-line tool

It loads an image into a bank of memory, runs a processor on it for a number of steps, and
shows what came of it. Everything but the time it takes is determined by the arguments and
the files, and is worked out here.
-/

namespace I860.Tool

open Arguments

/-- The configuration that the options ask for. -/
def configOf (readFile : String → Except FileProblem ByteArray) (o : Options) :
    Except HostError Config := do
  let config ← match o.config with
    | some path => Config.ofFile (readFile path)
    | none => pure .default
  let general : GeneralConfig :=
    { startPc := o.entry.getD config.general.startPc
      traceInstructions := config.general.traceInstructions || o.trace }
  return { config with general := general }

/-- The memory that the image is loaded into. -/
def boardOf (readFile : String → Except FileProblem ByteArray) (o : Options) (config : Config) :
    Except HostError Ram := do
  let ram := Ram.zeroed config.memory.ramBase config.memory.ramSize
  match readFile o.image with
  | .error problem => .error (.file problem.message)
  | .ok image =>
      ram.loadImage (o.load.getD config.memory.ramBase) (image.toList.map (·.toBitVec))

/-- The processor after the run. A tool that is not told how many steps to run runs none. -/
def run (readFile : String → Except FileProblem ByteArray) (o : Options) :
    Except HostError (Cpu Ram) := do
  let config ← configOf readFile o
  let board ← boardOf readFile o config
  let cpu ← Cpu.new board config
  return ((Run.new cpu config.run).finish (o.steps.getD 0)).2.cpu

/-- What is printed behind the report. -/
def summary (o : Options) (cpu : Cpu Ram) : String :=
  toString cpu.stats.steps ++ " steps, " ++ toString cpu.stats.instructions ++ " instructions\n"
    ++ (if o.dump then cpu.dump ++ "\n" else "")

end I860.Tool
