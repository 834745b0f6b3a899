/-
  Platforms: the screen geometry, glyph size and speed of an interpreter of the past, and its
  dialect. A platform is a preset, perhaps with another speed and with features replaced.
-/
import Chip8.Dialect
namespace Chip8

/-- An interpreter to imitate. -/
structure Platform where
  name : String
  width : Int
  height : Int
  /-- The distance in memory between two glyphs of the font. -/
  glyphSize : Int
  /-- The most instructions in one frame. -/
  tickRate : Int
  dialect : Dialect
  deriving DecidableEq

/-- Why there is no such platform. -/
inductive PlatformError where
  | unknownName (name : String)
  /-- The names that belong to no feature, ascending. -/
  | unknownFeatures (names : List String)
  | tickRateTooLow
  deriving DecidableEq

namespace Platform

/-- A preset with the usual screen and font. -/
def preset (name : String) (tickRate : Int) (dialect : Dialect) : Platform :=
  ⟨name, 64, 32, 5, tickRate, dialect⟩

/-- The presets, in the order in which they are listed to users. -/
def presets : List Platform :=
  [preset "cosmacvip" 15
    { logicClearsFlag := true, drawEndsFrame := true, jumpAddsFirst := true },
   preset "cosmacvip_legacy" 15
    { logicClearsFlag := true, transferMovesIndex := true, drawEndsFrame := true,
      shiftReadsSecond := true, jumpAddsFirst := true },
   preset "modern" 30 { spritesWrap := true, jumpAddsFirst := true },
   preset "chip48" 30 { transferMovesIndex := true, jumpAddsFirst := true },
   preset "superchip" 30 { jumpAddsFirst := true }]

/-- The preset that is used where none is asked for. -/
def defaultName : String := "cosmacvip"

/-- The preset of a name. -/
def find? (name : String) : Option Platform := presets.find? (·.name == name)

/-- The names among the overrides that belong to no feature, ascending and each once. -/
def unknownNames (overrides : List (String × Option Bool)) : List String :=
  (((overrides.map Prod.fst).filter fun n => (Feature.ofName? n).isNone).eraseDups).mergeSort
    fun a b => decide (a ≤ b)

/-- A dialect with features replaced. An override without a value keeps the preset's choice. -/
def override (d : Dialect) : List (String × Option Bool) → Dialect
  | [] => d
  | (name, some on) :: rest =>
    match Feature.ofName? name with
    | some f => override (d.set f on) rest
    | none => override d rest
  | (_, none) :: rest => override d rest

/-- The preset of a name, with features replaced and perhaps another speed. -/
def configure (name : String) (tickRate : Option Int) (overrides : List (String × Option Bool)) :
    Except PlatformError Platform :=
  match find? name with
  | none => .error (.unknownName name)
  | some p =>
    match unknownNames overrides with
    | n :: ns => .error (.unknownFeatures (n :: ns))
    | [] =>
      let p := { p with dialect := override p.dialect overrides }
      match tickRate with
      | none => .ok p
      | some rate => if rate ≤ 0 then .error .tickRateTooLow else .ok { p with tickRate := rate }

end Platform

/-- The text of an error. -/
def PlatformError.message : PlatformError → String
  | .unknownName name =>
    "Unknown platform '" ++ name ++ "'.  Choose from: " ++
      ", ".intercalate (Platform.presets.map (·.name))
  | .unknownFeatures names => "Unknown quirk(s): " ++ ", ".intercalate names
  | .tickRateTooLow => "Tick rate must be at least 1 instruction per frame"

end Chip8
