/-
  The screen: one byte for each pixel, 0 for background and 1 for foreground, row by row from
  the top. A guest changes it only by XOR, which reports what the pixel was before. A pixel
  past the right or the bottom edge wraps around or is clipped.
-/
import Chip8.Ram
namespace Chip8

/-- A screen. The bank has one byte for each pixel unless a change of size has failed. -/
structure Screen where
  width : Int
  height : Int
  /-- Pixels past the edges wrap around; otherwise those past the right or the bottom are
  clipped. -/
  wraps : Bool
  bank : Ram
  deriving DecidableEq

namespace Screen

/-- An empty screen. -/
def ofSize [Capacity] (width height : Int) (wraps : Bool) : Except Failure Screen := do
  return ⟨width, height, wraps, ← Ram.ofSize (width * height)⟩

/-- The number of pixels that the dimensions call for. -/
def area (s : Screen) : Int := s.width * s.height

/-- The pixels, row by row from the top. -/
def pixels (s : Screen) : List UInt8 := s.bank.cells.toList

/-- An empty screen of new dimensions. They are kept even when there is no bank of that size, and
then the pixels stay as they were. -/
def resize [Capacity] (s : Screen) (width height : Int) : Except Failure Unit × Screen :=
  match Ram.ofSize (width * height) with
  | .ok bank => (.ok (), { s with width := width, height := height, bank := bank })
  | .error e => (.error e, { s with width := width, height := height })

/-- The screen with every pixel off. -/
def clear (s : Screen) : Except Failure Screen := do
  return { s with bank := ← s.bank.clear }

/-- The pixel in a column and a row. -/
def pixel (s : Screen) (x y : Int) : Except Failure UInt8 := s.bank.read (y * s.width + x)

/-- The cell of the pixel in a column and a row, if it is not clipped. -/
def locate (s : Screen) (x y : Int) : Except Failure (Option Int) :=
  if s.wraps then
    if s.width = 0 ∨ s.height = 0 then .error (.misuse .divisionByZero)
    else .ok (some (y.fmod s.height * s.width + x.fmod s.width))
  else if s.width ≤ x ∨ s.height ≤ y then .ok none
  else .ok (some (y * s.width + x))

/-- The screen with one pixel flipped, and what the pixel was before. A clipped pixel has no
prior value and changes nothing. -/
def xorPixel (s : Screen) (x y : Int) : Except Failure (Option UInt8 × Screen) := do
  match ← s.locate x y with
  | none => return (none, s)
  | some cell =>
    let prior ← s.bank.read cell
    let bank ← s.bank.store cell (prior ^^^ 1)
    return (some prior, { s with bank := bank })

/-! ## Drawing many pixels -/

/-- What drawing pixels one after another leaves behind. -/
structure Drawing where
  screen : Screen
  /-- The prior values of the pixels that were drawn, OR-ed together. -/
  collision : UInt8
  /-- What stopped the drawing before its end. -/
  failure : Option Failure

/-- Flips pixels in turn, up to the first that fails. -/
def draw (s : Screen) (collision : UInt8) : List (Int × Int) → Drawing
  | [] => ⟨s, collision, none⟩
  | (x, y) :: points =>
    match s.xorPixel x y with
    | .ok (prior, s) => s.draw (collision ||| prior.getD 0) points
    | .error e => ⟨s, collision, some e⟩

/-! ## Rows and text -/

/-- The rows of pixels, top to bottom. A row past the pixels fails, and so does one that holds none:
one row more than there are pixels is as many as need be looked at. -/
def rows (s : Screen) : Except Failure (List (List UInt8)) :=
  (List.range (min s.height.toNat (s.bank.size + 1))).mapM fun (y : Nat) =>
    s.bank.readBlock (y * s.width) s.width

/-- One line for each row, with the given text for a pixel that is on and for one that is off. -/
def text (s : Screen) (on off : String) : Except Failure String := do
  let line (row : List UInt8) : List Char :=
    row.flatMap fun p => if p = 0 then off.toList else on.toList
  return String.ofList (List.intercalate ['\n'] ((← s.rows).map line))

/-- The text of a pixel that is on, where nothing else is asked for. -/
def defaultOn : String := "█"

/-- The text of a pixel that is off, where nothing else is asked for. -/
def defaultOff : String := " "

end Screen

end Chip8
