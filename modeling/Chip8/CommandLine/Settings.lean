/-
  What a user asks for on the command line: a program, and how to run it. A setting that is given
  twice has its last value, and one that is given without a value is blank.
-/
import Chip8.CommandLine.Grammar
import Chip8.Host.Keyboard
import Chip8.Log
import Chip8.Platform
namespace Chip8.CommandLine

open Text

/-- What a user says of a setting. -/
inductive Setting (α : Type) where
  | unset
  /-- The setting is given, but without a value. -/
  | blank
  | value (a : α)
  deriving DecidableEq

namespace Setting

/-- The value, if there is one. -/
def get? {α : Type} : Setting α → Option α
  | .value a => some a
  | _ => none

/-- The choice of a setting that is on or off. A blank one is off. -/
def choice? : Setting Bool → Option Bool
  | .unset => none
  | .blank => some false
  | .value on => some on

/-- The setting of a switch, whose value is read if it has one. -/
def read? {α : Type} (reader : String → Option α) : Option String → Option (Setting α)
  | none => some .blank
  | some text => (reader text).map .value

end Setting

/-- The settings of a run. -/
structure Settings where
  /-- The path of the program. -/
  file : String
  platform : Setting String := .value Platform.defaultName
  /-- The most instructions in one frame, if not the platform's. -/
  tickRate : Setting Int := .unset
  /-- What shows the screen. -/
  renderer : Setting String := .unset
  /-- The width of the window. -/
  scale : Setting Int := .unset
  mute : Setting Bool := .value false
  keymap : Setting String := .value Host.Keymap.defaultText
  palette : Setting String := .unset
  /-- Features switched on or off, the last choice first. -/
  features : List (Feature × Setting Bool) := []
  /-- Each instruction is told of before it runs. -/
  trace : Bool := false
  logLevel : Setting Level := .unset
  deriving DecidableEq

/-- What a switch is about. -/
inductive Topic where
  | help
  | platform
  | tickRate
  | renderer
  | scale
  | mute
  | keymap
  | palette
  | feature (f : Feature)
  | trace
  | logLevel
  deriving DecidableEq

/-- The name of a topic's switch. -/
def Topic.name : Topic → String
  | .help => "help"
  | .platform => "platform"
  | .tickRate => "tick_rate"
  | .renderer => "renderer"
  | .scale => "scale"
  | .mute => "mute"
  | .keymap => "keymap"
  | .palette => "palette"
  | .feature f => f.name
  | .trace => "trace"
  | .logLevel => "log_level"

/-- The letter of a topic's switch. -/
def Topic.letter : Topic → Option Char
  | .help => some 'h'
  | .platform => some 'p'
  | .tickRate => some 't'
  | .renderer => some 'r'
  | .scale => some 's'
  | .mute => some 'm'
  | .keymap => some 'k'
  | .palette | .feature _ => none
  | .trace => some 'd'
  | .logLevel => some 'l'

/-- All topics, in the order in which they are listed to users. -/
def Topic.all : List Topic :=
  [.help, .platform, .tickRate, .renderer, .scale, .mute, .keymap, .palette] ++
    Feature.all.map .feature ++ [.trace, .logLevel]

/-- The switch of a topic. Only help and trace are flags. -/
def Topic.switch (t : Topic) : Switch Topic :=
  { meaning := t, name := t.name, letter := t.letter, valued := t != .help && t != .trace }

/-- All switches. -/
def switches : List (Switch Topic) := Topic.all.map Topic.switch

/-- The name of the renderer that shows the screen on the desktop. -/
def desktopRenderer : String := "pygame"

/-- The renderers that a user may name. The second shows nothing. -/
def rendererNames : List String := [desktopRenderer, "null"]

/-- Why a command line starts nothing. -/
inductive Stop where
  | help
  | usage (e : UsageError)
  deriving DecidableEq

/-- The exit status of a command line that starts nothing. -/
def Stop.exitStatus : Stop → Nat
  | .help => 0
  | .usage _ => 2

/-- The integer of a text. -/
def number? (text : String) : Option Int := readInteger? .decimal text.toList

/-- The choice of a text that stands for the number zero or one. -/
def choice? (text : String) : Option Bool :=
  match number? text with
  | some 0 => some false
  | some 1 => some true
  | _ => none

/-- A text that is one of some names. -/
def oneOf? (names : List String) (text : String) : Option String :=
  names.find? (· == text)

namespace Settings

/-- The settings with one switch taken into account. -/
def apply (s : Settings) (topic : Topic) (value : Option String) : Except Stop Settings :=
  let taking {α : Type} (reader : String → Option α) (update : Setting α → Settings) :
      Except Stop Settings :=
    match Setting.read? reader value with
    | some setting => .ok (update setting)
    | none => .error (.usage (.badValue topic.name (value.getD "")))
  match topic with
  | .help => .error .help
  | .platform =>
    taking (oneOf? (Platform.presets.map (·.name))) fun v => { s with platform := v }
  | .tickRate => taking number? fun v => { s with tickRate := v }
  | .renderer => taking (oneOf? rendererNames) fun v => { s with renderer := v }
  | .scale => taking number? fun v => { s with scale := v }
  | .mute => taking choice? fun v => { s with mute := v }
  | .keymap => taking some fun v => { s with keymap := v }
  | .palette => taking some fun v => { s with palette := v }
  | .feature f => taking choice? fun v => { s with features := (f, v) :: s.features }
  | .trace => .ok { s with trace := true }
  | .logLevel => taking Level.ofName? fun v => { s with logLevel := v }

/-- The settings with switches taken into account in order. -/
def applyAll (s : Settings) : List (Topic × Option String) → Except Stop Settings
  | [] => .ok s
  | (topic, value) :: rest => do (← s.apply topic value).applyAll rest

/-- The settings of a command line. A switch that is read counts before an error that comes
after it. -/
def ofArguments (arguments : List String) : Except Stop Settings := do
  let reading ← (Reading.ofArguments switches arguments).mapError Stop.usage
  let settings ← applyAll { file := reading.operand.getD "" } reading.uses
  match reading.problem, reading.operand, reading.extras with
  | some e, _, _ => throw (.usage e)
  | none, none, _ => throw (.usage .missingOperand)
  | none, some _, e :: es => throw (.usage (.unexpected (e :: es)))
  | none, some _, [] => return settings

/-- What is said of a feature. -/
def feature (s : Settings) (f : Feature) : Setting Bool := (s.features.lookup f).getD .unset

/-- The lowest level of the records that are shown. Instructions are shown if they are told of at
all, unless another level is asked for. -/
def threshold (s : Settings) : Level :=
  s.logLevel.get?.getD (if s.trace then .debug else .warning)

end Settings

end Chip8.CommandLine
