/-
  The palette: a background and a foreground colour. A user gives one or both as six characters
  of hexadecimal, with a comma between them.
-/
import Chip8.Text.Fields
import Chip8.Text.Integer
namespace Chip8.Host

open Text

/-- A colour. -/
structure Colour where
  red : UInt8
  green : UInt8
  blue : UInt8
  deriving DecidableEq

/-- The colour of a number of 24 bits, red highest. -/
def Colour.ofNumber? (number : Int) : Option Colour :=
  if 0 ≤ number ∧ number < 0x1000000 then
    let n := number.toNat
    some ⟨UInt8.ofNat (n / 0x10000), UInt8.ofNat (n / 0x100), UInt8.ofNat n⟩
  else none

/-- The bytes of a colour, red first. -/
def Colour.bytes (c : Colour) : List UInt8 := [c.red, c.green, c.blue]

/-- The colours of a pixel that is off and of one that is on. -/
structure Palette where
  background : Colour
  foreground : Colour
  deriving DecidableEq

/-- Why a text is no palette. -/
inductive PaletteError where
  | tooMany
  | wrongLength
  | notHexadecimal
  /-- A colour is a number, but one that is no colour. -/
  | outOfRange
  deriving DecidableEq

/-- The text of an error, except for a number out of range, which has none. -/
def PaletteError.message? : PaletteError → Option String
  | .tooMany =>
    some "Too many palette colours defined.  Only background and foreground are used."
  | .wrongLength => some "Palette colours must all be 6 hex digits long."
  | .notHexadecimal => some "Invalid palette colour defined."
  | .outOfRange => none

namespace Palette

/-- The number of the background where none is given. -/
def defaultBackground : Int := 0x6495ED

/-- The number of the foreground where none is given. -/
def defaultForeground : Int := 0xFFFFFF

/-- The number of one colour. -/
def readNumber (field : List Char) : Except PaletteError Int :=
  if field.length ≠ 6 then .error .wrongLength
  else
    match readInteger? .hexadecimal field with
    | none => .error .notHexadecimal
    | some number => .ok number

/-- The palette of two numbers. -/
def ofNumbers (background foreground : Int) : Except PaletteError Palette :=
  match Colour.ofNumber? background, Colour.ofNumber? foreground with
  | some b, some f => .ok ⟨b, f⟩
  | _, _ => .error .outOfRange

/-- The palette of a text. All fields are read before any number is taken for a colour. -/
def ofText (text : String) : Except PaletteError Palette :=
  match fields ',' text.toList with
  | [b] => do ofNumbers (← readNumber b) defaultForeground
  | [b, f] => do ofNumbers (← readNumber b) (← readNumber f)
  | _ => .error .tooMany

/-- The palette where no text is given. -/
def ofText? : Option String → Except PaletteError Palette
  | none => ofNumbers defaultBackground defaultForeground
  | some text => ofText text

/-- The colour of a pixel. A value above one has none. -/
def colour? (p : Palette) (pixel : UInt8) : Option Colour :=
  if pixel = 0 then some p.background else if pixel = 1 then some p.foreground else none

end Palette

end Chip8.Host
