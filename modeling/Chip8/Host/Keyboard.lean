/-
  The host's keyboard. A keymap gives each guest key the code of a host key, and the keyboard
  remembers which guest keys are held. What a user does in one frame is a batch: presses and
  releases in order, and perhaps the commands to quit and to pause.
-/
import Chip8.Layout
import Chip8.Text.Fields
import Chip8.Text.Integer
namespace Chip8.Host

open Text

/-- The code of a host key for each guest key. -/
structure Keymap where
  codes : Vector Int keyCount
  deriving DecidableEq

/-- Why a text is no keymap. -/
inductive KeymapError where
  | wrongCount
  | notInteger
  | duplicate
  deriving DecidableEq

/-- The text of an error. -/
def KeymapError.message : KeymapError → String
  | .wrongCount => "Incorrect number of keys defined -- 16 required.  Use commas to split numbers"
  | .notInteger => "Defined keys are not all integer values"
  | .duplicate => "Duplicate keys defined"

namespace Keymap

/-- The keymap that is used where none is given: on most keyboards, the left four columns of the
letters and digits. -/
def defaultText : String := "120,49,50,51,113,119,101,97,115,100,122,99,52,114,102,118"

/-- Reads codes in turn, none of which may repeat an earlier one. -/
def readCodes (seen : List Int) : List (List Char) → Except KeymapError (List Int)
  | [] => .ok seen.reverse
  | f :: fs =>
    match readInteger? .decimal f with
    | none => .error .notInteger
    | some code => if code ∈ seen then .error .duplicate else readCodes (code :: seen) fs

/-- The keymap of a text: the codes of the keys 0 to F, with commas between them. -/
def ofText (text : String) : Except KeymapError Keymap :=
  let fs := fields ',' text.toList
  if fs.length ≠ keyCount then .error .wrongCount
  else (readCodes [] fs).map fun codes => ⟨Vector.ofFn fun k => codes.getD k.val 0⟩

/-- The guest key of a host key. -/
def keyOf? (m : Keymap) (code : Int) : Option Key := m.codes.finIdxOf? code

end Keymap

/-- A keymap, and which guest keys are held. -/
structure Keyboard where
  keymap : Keymap
  held : Vector Bool keyCount
  deriving DecidableEq

/-- What a user does in one frame. -/
structure Batch where
  /-- Host keys that go down (true) or up, in order. -/
  presses : List (Int × Bool) := []
  quit : Bool := false
  pause : Bool := false
  deriving DecidableEq

namespace Keyboard

/-- A keyboard with no key held. -/
def ofKeymap (m : Keymap) : Keyboard := ⟨m, Vector.replicate keyCount false⟩

/-- Presses or releases a host key. The result is its guest key. -/
def press (k : Keyboard) (code : Int) (down : Bool) : Option Key × Keyboard :=
  match k.keymap.keyOf? code with
  | none => (none, k)
  | some key => (some key, { k with held := k.held.set key down })

/-- The keyboard after the presses of a batch. -/
def apply (k : Keyboard) (b : Batch) : Keyboard :=
  b.presses.foldl (fun k p => (k.press p.1 p.2).2) k

end Keyboard

/-! ## Events of a desktop -/

/-- An event of a desktop window. -/
inductive DesktopEvent where
  | keyDown (code : Int)
  | keyUp (code : Int)
  | closed
  | other
  deriving DecidableEq

/-- The code of the Escape key. -/
def escapeCode : Int := 27

/-- The code of the P key. -/
def pauseCode : Int := 112

namespace Batch

/-- The batch with one more event. Escape and P are commands when they go up, and are not
released then. -/
def addEvent (b : Batch) : DesktopEvent → Batch
  | .keyDown code => { b with presses := b.presses ++ [(code, true)] }
  | .keyUp code =>
    if code = escapeCode then { b with quit := true }
    else if code = pauseCode then { b with pause := true }
    else { b with presses := b.presses ++ [(code, false)] }
  | .closed => { b with quit := true }
  | .other => b

/-- The batch of the events of one frame. -/
def ofEvents (events : List DesktopEvent) : Batch := events.foldl addEvent {}

/-- The names of the commands, ascending. -/
def commands (b : Batch) : List String :=
  (if b.pause then ["pause"] else []) ++ (if b.quit then ["quit"] else [])

end Batch

end Chip8.Host
