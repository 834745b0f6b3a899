/-
  The window on the desktop. A frame is first turned into an image of the screen's own size,
  three bytes for each pixel, and then stretched to the window.
-/
import Chip8.Host.Emulator
import Chip8.Host.Palette
namespace Chip8.Host

/-- A place to draw on: a scale, and the size of the screen that was drawn last. -/
structure Viewport where
  scale : Int
  width : Int := 0
  height : Int := 0
  deriving DecidableEq

namespace Viewport

/-- The viewport of a run without a window. -/
def headless (scale : Option Int) : Viewport := { scale := scale.getD 1 }

/-- The viewport for a screen of another size. -/
def resize (v : Viewport) (width height : Int) : Viewport :=
  { v with width := width, height := height }

end Viewport

/-- Why the desktop opens no window. -/
inductive WindowError where
  /-- The sides do not fit into machine words. -/
  | sidesOutOfRange
  | negativeSides
  | sidesTooLong
  deriving DecidableEq

/-- The text of an error. -/
def WindowError.message : WindowError → String
  | .sidesOutOfRange => "The size of the window is out of range."
  | .negativeSides => "The size of the window is negative."
  | .sidesTooLong => "The window is too large."

/-- A window. -/
structure Window where
  /-- The scale of a window is the width that was asked for. -/
  viewport : Viewport
  palette : Palette
  title : String
  /-- The width and height that the desktop gave it. -/
  size : Int × Int
  /-- The image, row by row. -/
  image : Array UInt8
  deriving DecidableEq

namespace Window

/-- The width of a window where none is asked for. -/
def defaultScale : Int := 640

/-- The width and height of the whole desktop. -/
def desktopSize : Int × Int := (1024, 768)

/-- The longest side of a window. -/
def longestSide : Int := 0x4000

/-- The width and height that a scale asks for: half as high as wide. Of each the desktop sees half
a machine word. -/
def sides (scale : Int) : Int × Int :=
  (scale.bmod 0x100000000, (scale / 2).bmod 0x100000000)

/-- The size of a window that the desktop gives for a scale. A window without sides is as large as
the desktop, and no side of another is shorter than a pixel. -/
def givenSize (scale : Int) : Except WindowError (Int × Int) :=
  let (width, height) := sides scale
  if !fitsWord scale then .error .sidesOutOfRange
  else if width < 0 ∨ height < 0 then .error .negativeSides
  else if width = 0 ∧ height = 0 then .ok desktopSize
  else if longestSide < width ∨ longestSide < height then .error .sidesTooLong
  else .ok (max 1 width, max 1 height)

/-- A new window of a scale and of the size that the desktop gave for it. -/
def new (scale : Int) (size : Int × Int) (palette : Palette) : Window :=
  { viewport := { scale := scale }, palette := palette, title := programName, size := size,
    image := #[] }

/-- The window with another title, in which the null character is refused. -/
def setTitle (w : Window) (title : String) : Except Failure Window :=
  if title.toList.contains '\x00' then .error (.misuse .valueOutOfRange)
  else .ok { w with title := title }

/-- The title as the desktop tells it. It has nothing to tell of an empty one. -/
def shownTitle (w : Window) : Except Failure String :=
  if w.title = "" then .error (.misuse .indexOutOfRange) else .ok w.title

/-- Paints pixels into an image, from one pixel onward and up to the first without a colour. -/
def paint (p : Palette) (image : Array UInt8) (location : Nat) :
    List UInt8 → Except Failure Unit × Array UInt8
  | [] => (.ok (), image)
  | pixel :: rest =>
    match p.colour? pixel with
    | none => (.error (.misuse .indexOutOfRange), image)
    | some c => paint p (Ram.overwrite image (3 * location) c.bytes) (location + 1) rest

/-- The window made ready for a screen: a new image if the size has changed. -/
def fit (w : Window) (s : Screen) : Window :=
  if s.width = w.viewport.width ∧ s.height = w.viewport.height then w
  else { w with
    viewport := w.viewport.resize s.width s.height
    image := Array.replicate (s.width * s.height * 3).toNat 0 }

/-- Draws a screen. The desktop refuses an image without pixels, and one whose sides do not fit
into half a machine word. -/
def draw (w : Window) (s : Screen) : Except Failure Unit × Window :=
  let w := w.fit s
  let (result, image) := paint w.palette w.image 0 s.pixels
  let w := { w with image := image }
  match result with
  | .error e => (.error e, w)
  | .ok () =>
    if !fitsHalfWord s.width || !fitsHalfWord s.height then (.error (.misuse .overflow), w)
    else if s.width < 1 ∨ s.height < 1 then (.error (.misuse .valueOutOfRange), w)
    else (.ok (), w)

/-- What the window shows in a column and a row: the nearest pixel of the image, or black where the
stretched image does not reach. -/
def shown (w : Window) (x y : Nat) : List UInt8 :=
  let columns := w.viewport.width.toNat
  let rows := w.viewport.height.toNat
  let width := (sides w.viewport.scale).1.toNat
  let height := (sides w.viewport.scale).2.toNat
  if x < width ∧ y < height then
    let pixel := y * rows / height * columns + x * columns / width
    [w.image.getD (3 * pixel) 0, w.image.getD (3 * pixel + 1) 0, w.image.getD (3 * pixel + 2) 0]
  else [0, 0, 0]

/-- What the window shows, row by row. -/
def surface (w : Window) : List UInt8 :=
  (List.range w.size.2.toNat).flatMap fun y => (List.range w.size.1.toNat).flatMap fun x =>
    w.shown x y

end Window

end Chip8.Host
