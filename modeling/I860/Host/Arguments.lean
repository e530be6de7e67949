import I860.Config.Basic
import I860.Text.Hex
/-!
# Command-line arguments

    IMAGE              the image to run
    -c, --config FILE  a configuration
    -l, --load ADDR    where the image is loaded
    -e, --entry ADDR   where the program starts
    -s, --steps N      how many steps to run
    -d, --dump         show the registers at the end
    -t, --trace        trace instructions
    -h, --help         say what there is
    -V, --version      say which version this is

The value of an option is the next argument, or stands behind `=`, or follows a short name at
once. Short names may be joined, and what follows `--` is no option. Nothing may be given
twice. Arguments are read from left to right, and the first that cannot be followed decides.
-/

namespace I860.Arguments

/-- What the arguments ask for. -/
structure Options where
  image : String
  config : Option String
  load : Option Word
  entry : Option Word
  steps : Option Nat
  dump : Bool
  trace : Bool
  deriving DecidableEq, Repr

/-- Why arguments do not lead to a run. -/
inductive Refusal where
  | unknownOption (name : String)
  | unexpected (argument : String)
  | repeated (name : String)
  | missingValue (name : String)
  | invalidValue (name value : String)
  | missingImage
  | helpAsked
  | versionAsked
  deriving DecidableEq, Repr

/-- The exit code of a tool that was asked for something other than a run. -/
def Refusal.exitCode : Refusal → Nat
  | .helpAsked | .versionAsked => 0
  | _ => 2

/-- The wording of a refusal. -/
def Refusal.message : Refusal → String
  | .unknownOption name => "unknown option " ++ name
  | .unexpected argument => "unexpected argument " ++ argument
  | .repeated name => "--" ++ name ++ " cannot be used twice"
  | .missingValue name => "--" ++ name ++ " needs a value"
  | .invalidValue name value => "invalid value " ++ value ++ " for --" ++ name
  | .missingImage => "an image is needed"
  | .helpAsked =>
      "usage: IMAGE [-c FILE] [-l ADDR] [-e ADDR] [-s N] [-d] [-t]"
  | .versionAsked => "0.1.0"

/-- An option. -/
inductive Name where
  | config
  | load
  | entry
  | steps
  | dump
  | trace
  | help
  | version
  deriving DecidableEq, Repr

namespace Name

def long : Name → String
  | .config => "config"
  | .load => "load"
  | .entry => "entry"
  | .steps => "steps"
  | .dump => "dump"
  | .trace => "trace"
  | .help => "help"
  | .version => "version"

def short : Name → Char
  | .config => 'c'
  | .load => 'l'
  | .entry => 'e'
  | .steps => 's'
  | .dump => 'd'
  | .trace => 't'
  | .help => 'h'
  | .version => 'V'

def all : List Name := [.config, .load, .entry, .steps, .dump, .trace, .help, .version]

/-- Whether the option comes with a value. -/
def takesValue : Name → Bool
  | .config | .load | .entry | .steps => true
  | _ => false

end Name

/-- The number that digits stand for; there has to be one, and a plus sign may come first. -/
def number? (base bound : Nat) (text : List Char) : Option Nat :=
  let digits := match text with
    | '+' :: rest => rest
    | _ => text
  if digits.isEmpty then none else (Text.ofDigits? base digits).filter (· < bound)

/-- An address: hexadecimal digits behind `0x`, or decimal ones. Underscores only divide
them. -/
def address? (text : String) : Option Word :=
  let plain (digits : List Char) : List Char := digits.filter (· != '_')
  let value? := match text.toList with
    | '0' :: 'x' :: rest => number? 16 (2 ^ 32) (plain rest)
    | '0' :: 'X' :: rest => number? 16 (2 ^ 32) (plain rest)
    | digits => number? 10 (2 ^ 32) (plain digits)
  value?.map (BitVec.ofNat 32)

/-- A number of steps. -/
def count? (text : String) : Option Nat := number? 10 (2 ^ 64) text.toList

/-- The path of a file: any text but none. -/
def path? (text : String) : Option String := if text.isEmpty then none else some text

/-- What has been read so far. -/
structure Gathered where
  image : Option String
  config : Option String
  load : Option Word
  entry : Option Word
  steps : Option Nat
  dump : Bool
  trace : Bool
  deriving DecidableEq, Repr

namespace Gathered

def nothing : Gathered := ⟨none, none, none, none, none, false, false⟩

/-- An option's value, if the option is new and the value is one. -/
def readValue {α : Type} (name : Name) (old : Option α) (read : String → Option α)
    (value : String) : Except Refusal (Option α) :=
  if old.isSome then .error (.repeated name.long)
  else
    match read value with
    | some v => .ok (some v)
    | none => .error (.invalidValue name.long value)

/-- Takes in an option with its value. -/
def setValue (g : Gathered) (name : Name) (value : String) : Except Refusal Gathered :=
  match name with
  | .config => return { g with config := ← readValue name g.config path? value }
  | .load => return { g with load := ← readValue name g.load address? value }
  | .entry => return { g with entry := ← readValue name g.entry address? value }
  | .steps => return { g with steps := ← readValue name g.steps count? value }
  | _ => .error (.unexpected value)

/-- Takes in an option that has no value. -/
def setSwitch (g : Gathered) : Name → Except Refusal Gathered
  | .dump => if g.dump then .error (.repeated "dump") else .ok { g with dump := true }
  | .trace => if g.trace then .error (.repeated "trace") else .ok { g with trace := true }
  | .help => .error .helpAsked
  | .version => .error .versionAsked
  | name => .error (.missingValue name.long)

/-- Takes in an argument that is no option. -/
def setImage (g : Gathered) (argument : String) : Except Refusal Gathered :=
  if g.image.isSome then .error (.unexpected argument)
  else
    match path? argument with
    | some image => .ok { g with image := some image }
    | none => .error .missingImage

/-- The options if nothing is missing. -/
def options (g : Gathered) : Except Refusal Options :=
  match g.image with
  | some image => .ok ⟨image, g.config, g.load, g.entry, g.steps, g.dump, g.trace⟩
  | none => .error .missingImage

end Gathered

/-- What an argument says by itself: it is complete, or the value of its last option is still
to come. -/
inductive Reading where
  | complete (g : Gathered)
  | needsValue (name : Name) (g : Gathered)

/-- Reads `--name` or `--name=value`, given without the dashes. -/
def readLong (g : Gathered) (text : List Char) : Except Refusal Reading := do
  let key := String.ofList (text.takeWhile (· != '='))
  let value? := match text.dropWhile (· != '=') with
    | [] => none
    | _ :: value => some (String.ofList value)
  match Name.all.find? (·.long == key), value? with
  | none, _ => .error (.unknownOption ("--" ++ key))
  | some name, some value => return .complete (← g.setValue name value)
  | some name, none =>
      if name.takesValue then return .needsValue name g else return .complete (← g.setSwitch name)

/-- Reads joined short options, given without the dash. -/
def readShort (g : Gathered) : List Char → Except Refusal Reading
  | [] => .ok (.complete g)
  | c :: rest =>
      match Name.all.find? (·.short == c) with
      | none => .error (.unknownOption (String.ofList ['-', c]))
      | some name =>
          if name.takesValue then
            match rest with
            | [] => .ok (.needsValue name g)
            | '=' :: value => (g.setValue name (String.ofList value)).map .complete
            | value => (g.setValue name (String.ofList value)).map .complete
          else do readShort (← g.setSwitch name) rest

/-- Whether an argument stands for options. A lone dash does not. -/
def isOption : List Char → Bool
  | '-' :: _ :: _ => true
  | _ => false

/-- Reads an argument that stands for options. -/
def readOption (g : Gathered) : List Char → Except Refusal Reading
  | '-' :: '-' :: text => readLong g text
  | '-' :: text => readShort g text
  | text => .error (.unexpected (String.ofList text))

/-- Reads arguments from left to right. -/
def readAll (g : Gathered) : List String → Except Refusal Gathered
  | [] => .ok g
  | "--" :: rest => rest.foldlM Gathered.setImage g
  | argument :: rest =>
      if isOption argument.toList then
        match readOption g argument.toList with
        | .error refusal => .error refusal
        | .ok (.complete g) => readAll g rest
        | .ok (.needsValue name g) =>
            match rest with
            | [] => .error (.missingValue name.long)
            | value :: rest =>
                if isOption value.toList then .error (.missingValue name.long)
                else
                  match g.setValue name value with
                  | .error refusal => .error refusal
                  | .ok g => readAll g rest
      else
        match g.setImage argument with
        | .error refusal => .error refusal
        | .ok g => readAll g rest

/-- What the arguments ask for. -/
def read (arguments : List String) : Except Refusal Options := do
  (← readAll .nothing arguments).options

end I860.Arguments
