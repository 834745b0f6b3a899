/-
  A launch: from the options of a front end to a session that is ready to run, on the desktop or
  without one, and from there to its end.

  The options are looked at in a fixed order, and the first thing that goes wrong ends the launch:
  the platform, the desktop, the program's file, the program's size, the window, the palette, the
  keymap.
-/
import Chip8.CommandLine.Settings
import Chip8.Host.Speaker
import Chip8.Host.Window
namespace Chip8.Host

open CommandLine

/-- The version of this program. -/
def version : String := "1.0.0"

/-- What opens the banner. -/
def intro : String := programName ++ " V" ++ version ++ " -- "

/-- What closes the banner. -/
def terms : String :=
  "Copyright (C) 2022 Gregory Maynard-Hoare, licensed under GNU Affero General Public License v3.0"

/-- The line that a launch shows first. -/
def banner : String := intro ++ terms

/-! ## Options -/

/-- The options of a front end. It has to say something about each, if only that it is unset:
`none` is an option about which it says nothing. -/
structure Options where
  features : Feature → Option (Setting Bool)
  platform : Option (Setting String)
  tickRate : Option (Setting Int)
  renderer : Option (Setting String)
  mute : Option (Setting Bool)
  /-- The path of the program. -/
  file : Option String
  trace : Option Bool
  scale : Option (Setting Int)
  palette : Option (Setting String)
  keymap : Option (Setting String)

/-- The options of a command line, which says something about all of them. -/
def Options.ofSettings (s : Settings) : Options where
  features f := some (s.feature f)
  platform := some s.platform
  tickRate := some s.tickRate
  renderer := some s.renderer
  mute := some s.mute
  file := some s.file
  trace := some s.trace
  scale := some s.scale
  palette := some s.palette
  keymap := some s.keymap

/-- Why a file cannot be read. -/
inductive FileError where
  | notFound
  | isDirectory
  /-- A file on the way to it was taken for a directory. -/
  | notDirectory
  | nameTooLong
  /-- No file can have such a path. -/
  | badPath
  | unreadable
  deriving DecidableEq

/-- The text of an error. -/
def FileError.message : FileError → String
  | .notFound => "No such file"
  | .isDirectory => "Is a directory"
  | .notDirectory => "Not a directory"
  | .nameTooLong => "The file name is too long"
  | .badPath => "Not a path"
  | .unreadable => "The file cannot be read"

/-- What the program allows itself of the memory: by far more than the screen of any platform takes
up. -/
instance allowance : Capacity where
  cells := 0x20000000
  zeros := 0x4000000000
  memorySize_le_cells := by decide
  cells_le_zeros := by decide
  zeros_le_maxBlockSize := by decide

/-- Where a launch takes place. -/
structure Surroundings where
  /-- There is a desktop. -/
  desktop : Bool
  /-- The bytes of each file. -/
  files : String → Except FileError (List UInt8)
  /-- The random numbers. -/
  source : Source

/-- The bytes of the file of a path, which cannot hold the null character. -/
def Surroundings.read (place : Surroundings) (path : String) : Except FileError (List UInt8) :=
  if path.toList.contains '\x00' then .error .badPath else place.files path

/-- Why a launch fails. -/
inductive LaunchError where
  | missing (option : String)
  /-- An option that needs a value has none. -/
  | blank (option : Topic)
  | platform (e : PlatformError)
  | noDesktop
  | file (e : FileError)
  | program (f : Fault)
  | window (e : WindowError)
  | palette (e : PaletteError)
  | keymap (e : KeymapError)
  /-- No machine can be made for the platform. -/
  | machine (e : Failure)
  deriving DecidableEq

/-- The text of an error. -/
def LaunchError.message : LaunchError → String
  | .missing option => "Missing option: " ++ option
  | .blank option => "Option without a value: " ++ option.name
  | .platform e => e.message
  | .noDesktop =>
    "PyGame does not appear to be installed.  Use the null renderer to run headless."
  | .file e => e.message
  | .program f => f.message
  | .window e => e.message
  | .palette e => e.message?.getD "Palette colour out of range."
  | .keymap e => e.message
  | .machine (.fault f) => f.message
  | .machine (.misuse _) => "No machine can be made for this platform."

/-! ## Making ready -/

/-- What shows the screen. -/
inductive Display where
  | desktop (w : Window)
  | headless (v : Viewport)

/-- A session that is ready to run. -/
structure Launch where
  session : Session
  keyboard : Keyboard
  display : Display
  /-- There is a speaker. -/
  audible : Bool

/-- What the options say before a machine is made. -/
structure Plan where
  processor : Processor
  program : List UInt8
  onDesktop : Bool
  audible : Bool

namespace Options

/-- An option that a front end must not pass over. -/
def required {α : Type} (name : String) : Option α → Except LaunchError α
  | some a => .ok a
  | none => .error (.missing name)

/-- The value of an option that needs one. -/
def needed {α : Type} (option : Topic) : Setting α → Except LaunchError α
  | .value a => .ok a
  | _ => .error (.blank option)

/-- The value of an option that may be unset, but not blank. -/
def notBlank {α : Type} (option : Topic) : Setting α → Except LaunchError (Option α)
  | .blank => .error (.blank option)
  | setting => .ok setting.get?

/-- The choices for some features. -/
def overrides (o : Options) : List Feature → Except LaunchError (List (String × Option Bool))
  | [] => .ok []
  | f :: rest => do
    return (f.name, (← required f.name (o.features f)).choice?) :: (← o.overrides rest)

/-- The desktop is wanted unless another renderer is named, or none in particular. -/
def wantsDesktop : Setting String → Bool
  | .unset => true
  | .blank => false
  | .value name => name == desktopRenderer

/-- The platform of a name. A blank speed is found out only once there is such a platform. -/
def platformOf (name : String) (tickRate : Setting Int)
    (overrides : List (String × Option Bool)) : Except LaunchError Platform := do
  let platform ← (Platform.configure name tickRate.get? overrides).mapError .platform
  let _ ← notBlank .tickRate tickRate
  return platform

/-- What the options say before a machine is made. A run without a desktop makes no sound. -/
def plan (o : Options) (place : Surroundings) : Except LaunchError Plan := do
  let overrides ← o.overrides Feature.all
  let name ← required "platform" o.platform
  let tickRate ← required "tick_rate" o.tickRate
  let platform ← platformOf (← needed .platform name) tickRate overrides
  let onDesktop := wantsDesktop (← required "renderer" o.renderer)
  let mute := (← required "mute" o.mute).choice?.getD false
  if onDesktop && !place.desktop then throw .noDesktop
  let program ← (place.read (← required "filename" o.file)).mapError .file
  let tracing ← required "trace" o.trace
  return {
    processor := { platform := platform, source := place.source, tracing := tracing }
    program := program
    onDesktop := onDesktop
    audible := onDesktop && !mute }

/-- What shows the screen. Without a desktop the palette is not looked at. -/
def display (o : Options) (onDesktop : Bool) : Except LaunchError Display := do
  let scale ← required "scale" o.scale
  let palette ← required "palette" o.palette
  if onDesktop then
    let scale := (← notBlank .scale scale).getD Window.defaultScale
    let size ← (Window.givenSize scale).mapError .window
    let palette ← (Palette.ofText? (← notBlank .palette palette)).mapError .palette
    return .desktop (Window.new scale size palette)
  else return .headless (Viewport.headless scale.get?)

/-- The keyboard. -/
def keyboard (o : Options) : Except LaunchError Keyboard := do
  let text ← needed .keymap (← required "keymap" o.keymap)
  return Keyboard.ofKeymap (← (Keymap.ofText text).mapError .keymap)

/-- Makes a session ready, and tells of its program. -/
def prepare [Capacity] (o : Options) (place : Surroundings) :
    Except LaunchError Launch × List Record :=
  match o.plan place with
  | .error e => (.error e, [])
  | .ok plan =>
    match Session.new plan.processor with
    | .error e => (.error (.machine e), [])
    | .ok session =>
      let reply := session.load plan.program
      match reply.result with
      | .error (.fault f) => (.error (.program f), reply.log)
      | .error e => (.error (.machine e), reply.log)
      | .ok () =>
        (do return {
          session := reply.session
          display := ← o.display plan.onDesktop
          keyboard := ← o.keyboard
          audible := plan.audible }, reply.log)

end Options

/-! ## Running -/

/-- How a run ended. -/
structure Finish where
  /-- The fault that ended the program, if one did. -/
  result : Except Failure (Option Fault)
  log : List Record
  /-- The calls of the sound mixer. -/
  mixer : List MixerCall

/-- The exit status of a run. -/
def exitStatus (fault : Option Fault) : Nat := if fault.isSome then 1 else 0

/-- The record of a fault that ended the program. -/
def closingRecords (fault : Option Fault) : List Record := fault.toList.map .stopped

namespace Launch

/-- The batches of a run before which a user did something. Without a desktop nobody sees it. -/
def feed (l : Launch) (events : List DesktopEvent) : List Batch :=
  match l.display with
  | .desktop _ => [Batch.ofEvents events]
  | .headless _ => []

/-- The state of the buzzer that an event sets. -/
def buzzer? {τ : Type} : Event τ → Option Bool
  | .buzzer on => some on
  | _ => none

/-- The calls of the sound mixer in a run with the given events. -/
def mixerCalls {τ : Type} (l : Launch) (events : List (Event τ)) : List MixerCall :=
  if l.audible then
    Speaker.openCalls ++ (Speaker.enableAll {} (events.filterMap buzzer?)).2 ++ Speaker.closeCalls
  else []

/-- Runs to the end, within a number of passes. -/
def run {κ τ : Type} [Time τ] (l : Launch) (clock : Clock κ τ) (watch : κ)
    (events : List DesktopEvent) (passes : Nat) : Option Finish :=
  match Loop.start clock (Emulator.new l.session l.keyboard) (l.feed events) watch with
  | .error failure =>
    let opening : List (Event τ) := Emulator.opening
    some { result := .error failure, log := [], mixer := l.mixerCalls opening }
  | .ok loop =>
    (loop.run clock passes).map fun (result, loop) =>
      let fault := loop.emulator.session.fault
      { result := result.map fun () => fault
        log := loop.log.toList ++ match result with
          | .ok () => closingRecords fault
          | .error _ => []
        mixer := l.mixerCalls loop.events.toList }

end Launch

end Chip8.Host
