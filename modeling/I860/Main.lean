import I860.Host.Tool
/-!
# The program

Reads files, takes the time, and prints.
-/

open I860

/-- The contents of a file. -/
def readContents (path : String) : IO (Except FileProblem ByteArray) := do
  try
    return .ok (← IO.FS.readBinFile path)
  catch _ =>
    return .error .missing

/-- Runs the tool and gives its exit code. -/
def runTool (o : Arguments.Options) : IO UInt32 := do
  let image ← readContents o.image
  let config ← match o.config with
    | some path => readContents path
    | none => pure (.error .missing)
  let readFile (path : String) : Except FileProblem ByteArray :=
    if path = o.image then image else config
  let start ← IO.monoNanosNow
  match Tool.run readFile o with
  | .error problem =>
      IO.eprintln problem.message
      return problem.exitCode.toUInt32
  | .ok cpu =>
      let stop ← IO.monoNanosNow
      IO.println (cpu.report (stop - start)).text
      IO.print (Tool.summary o cpu)
      return 0

def main (arguments : List String) : IO UInt32 := do
  match Arguments.read arguments with
  | .ok o => runTool o
  | .error refusal =>
      if refusal.exitCode = 0 then IO.println refusal.message
      else IO.eprintln ("error: " ++ refusal.message)
      return refusal.exitCode.toUInt32
