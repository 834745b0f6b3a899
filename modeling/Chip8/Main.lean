/-
  The command line program. It reads the command line and the program's file, and runs the
  session in real time and without a desktop; records go to standard error as they come.
-/
import Chip8.Host.Launch
namespace Chip8.Program

open Host CommandLine

/-- How a switch is written. -/
def switchText (s : Switch Topic) : String :=
  "  --" ++ s.name ++ (match s.letter with
    | some c => ", -" ++ String.singleton c
    | none => "") ++ (if s.valued then " VALUE" else "")

/-- What is shown to a user who asks for help. -/
def usage : String :=
  "\n".intercalate ("usage: chip8 [options] filename" :: switches.map switchText)

/-- The bytes of a file. -/
def readFile (file : String) : IO (Except FileError (List UInt8)) := do
  match ← (IO.FS.readBinFile file).toBaseIO with
  | .ok bytes => return .ok bytes.toList
  | .error (.noFileOrDirectory ..) => return .error .notFound
  | .error (.inappropriateType ..) => return .error .isDirectory
  | .error _ => return .error .unreadable

/-- The seconds since some moment. -/
def now : IO Float := do return (← IO.monoNanosNow).toFloat / 1000000000.0

/-- Random numbers that depend on a seed. -/
def sourceOf (seed : Nat) : Source where
  stream n := some ((mixHash (hash seed) (hash n)).toNat % 256)

/-- Shows the records of a level or above it. -/
def tell (threshold : Level) (records : List Record) : IO Unit := do
  for line in Record.linesFrom threshold records do IO.eprintln line

/-- Runs frames until the session is off. -/
partial def frames (threshold : Level) (e : Emulator Float) (deadline : Float) :
    IO (Except Failure (Option Fault)) := do
  let time ← now
  match e.reportAt time with
  | .error failure => return .error failure
  | .ok (e, _) =>
    let turn := e.runFrame {}
    tell threshold turn.log
    match turn.result with
    | .error failure => return .error failure
    | .ok false => return .ok turn.emulator.session.fault
    | .ok true =>
      let deadline := nextDeadline deadline time
      let delay := deadline - (← now)
      if 0.0 < delay then IO.sleep (delay * 1000.0).toUInt32
      frames threshold turn.emulator deadline

/-- Runs a program as the settings say. The result is the exit status. -/
def runSettings (s : Settings) : IO UInt32 := do
  IO.println banner
  let contents ← readFile s.file
  let place : Surroundings :=
    { desktop := false, files := fun _ => contents, source := sourceOf (← IO.rand 0 0x7FFFFFFF) }
  let (launch, records) := (Options.ofSettings s).prepare place
  tell s.threshold records
  match launch with
  | .error e =>
    IO.eprintln e.message
    return 1
  | .ok launch =>
    match ← frames s.threshold (Emulator.new launch.session launch.keyboard) (← now) with
    | .error _ => return 1
    | .ok fault =>
      tell s.threshold (closingRecords fault)
      return (exitStatus fault).toUInt32

end Chip8.Program

/-- Runs the command line program. -/
def main (arguments : List String) : IO UInt32 := do
  match Chip8.CommandLine.Settings.ofArguments arguments with
  | .ok settings => Chip8.Program.runSettings settings
  | .error stop =>
    match stop with
    | .help => IO.println Chip8.Program.usage
    | .usage e => IO.eprintln ("chip8: error: " ++ e.message)
    return stop.exitStatus.toUInt32
