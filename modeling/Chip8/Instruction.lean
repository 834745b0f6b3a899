/-
  Instructions and the words that stand for them. A word is four nibbles c, x, y and n; its low
  byte and its low twelve bits serve as operands too. The first nibble gives the family of a
  word, and the instructions of some families are told apart by bits further down.
-/
import Chip8.Layout
namespace Chip8

/-- An instruction of the guest. -/
inductive Instruction where
  /-- Turn all pixels off. -/
  | clear
  /-- Return from a call. -/
  | ret
  | jump (target : Address)
  | call (target : Address)
  | skipIfByte (x : Register) (k : UInt8)
  | skipUnlessByte (x : Register) (k : UInt8)
  | skipIfSame (x y : Register)
  | setByte (x : Register) (k : UInt8)
  /-- Add a byte to Vx and leave the flag alone. -/
  | addByte (x : Register) (k : UInt8)
  | copy (x y : Register)
  | orWith (x y : Register)
  | andWith (x y : Register)
  | xorWith (x y : Register)
  /-- Add Vy to Vx; the flag is the carry. -/
  | add (x y : Register)
  /-- Take Vy from Vx; the flag says that Vx was larger. -/
  | subtract (x y : Register)
  /-- Shift right into Vx; the flag is the bit that fell out. -/
  | shiftRight (x y : Register)
  /-- Take Vx from Vy into Vx; the flag says that Vy was larger. -/
  | subtractFrom (x y : Register)
  /-- Shift left into Vx; the flag is the bit that fell out. -/
  | shiftLeft (x y : Register)
  | skipUnlessSame (x y : Register)
  | setIndex (target : Address)
  /-- Jump to an address plus V0. -/
  | jumpOffset (target : Address)
  /-- Put a random byte into Vx, with only the bits of a mask. -/
  | random (x : Register) (mask : UInt8)
  /-- Draw a sprite of some rows at column Vx and row Vy; the flag is the collision. -/
  | draw (x y : Register) (rows : Fin 16)
  | skipIfHeld (x : Register)
  | skipUnlessHeld (x : Register)
  | readDelay (x : Register)
  /-- Wait for a key, and put its number into Vx. -/
  | waitKey (x : Register)
  | setDelay (x : Register)
  | setSound (x : Register)
  | addIndex (x : Register)
  /-- Point I at the glyph of the digit in Vx. -/
  | pointGlyph (x : Register)
  /-- Store the three decimal digits of Vx at I. -/
  | storeDigits (x : Register)
  /-- Store V0 to Vx at I. -/
  | storeRegisters (x : Register)
  /-- Load V0 to Vx from I. -/
  | loadRegisters (x : Register)
  deriving DecidableEq

/-- The parts of a word. -/
structure Operands where
  c : Fin 16
  x : Register
  y : Register
  n : Fin 16
  byte : UInt8
  address : Address
  deriving DecidableEq

namespace Operands

/-- The nibble of a word at a place value. -/
def nibble (word place : Int) : Fin 16 := ⟨((word / place) % 16).toNat, by omega⟩

/-- The parts of a word, of which the low sixteen bits count. -/
def ofWord (word : Int) : Operands where
  c := nibble word 0x1000
  x := nibble word 0x100
  y := nibble word 0x10
  n := nibble word 1
  byte := UInt8.ofNat (word % 256).toNat
  address := Address.ofInt word

end Operands

/-! ## Families -/

/-- The bits below the first nibble that tell the instructions of a family apart. -/
inductive Selector where
  | none
  | lowNibble
  | lowByte
  | all
  deriving DecidableEq

namespace Selector

/-- The bits of a word that identify its instruction. -/
def mask : Selector → Nat
  | .none => 0xF000
  | .lowNibble => 0xF00F
  | .lowByte => 0xF0FF
  | .all => 0xFFFF

/-- The selector of a family. A number that is no nibble is no family, and selects nothing. -/
def ofFamily (family : Int) : Selector :=
  if family = 0x0 then .all
  else if family = 0x5 ∨ family = 0x8 ∨ family = 0x9 then .lowNibble
  else if family = 0xE ∨ family = 0xF then .lowByte
  else .none

/-- The value of the selected bits. -/
def value (s : Selector) (o : Operands) : Nat :=
  match s with
  | .none => 0
  | .lowNibble => o.n
  | .lowByte => o.byte.toNat
  | .all => o.address

end Selector

namespace Instruction

/-- The families that need more than their first nibble, each with the mask of its words. -/
def familyMasks : List (Nat × Nat) :=
  (List.range 16).filterMap fun (family : Nat) =>
    match Selector.ofFamily family with
    | .none => none
    | s => some (family, s.mask)

/-- The instruction of a word, if it has one. A word wider than sixteen bits is identified by
its fourth nibble alone. -/
def ofWord? (word : Int) : Option Instruction :=
  let o := Operands.ofWord word
  match o.c.val, (Selector.ofFamily (word / 0x1000)).value o with
  | 0x0, 0x0E0 => some .clear
  | 0x0, 0x0EE => some .ret
  | 0x1, _ => some (.jump o.address)
  | 0x2, _ => some (.call o.address)
  | 0x3, _ => some (.skipIfByte o.x o.byte)
  | 0x4, _ => some (.skipUnlessByte o.x o.byte)
  | 0x5, 0x0 => some (.skipIfSame o.x o.y)
  | 0x6, _ => some (.setByte o.x o.byte)
  | 0x7, _ => some (.addByte o.x o.byte)
  | 0x8, 0x0 => some (.copy o.x o.y)
  | 0x8, 0x1 => some (.orWith o.x o.y)
  | 0x8, 0x2 => some (.andWith o.x o.y)
  | 0x8, 0x3 => some (.xorWith o.x o.y)
  | 0x8, 0x4 => some (.add o.x o.y)
  | 0x8, 0x5 => some (.subtract o.x o.y)
  | 0x8, 0x6 => some (.shiftRight o.x o.y)
  | 0x8, 0x7 => some (.subtractFrom o.x o.y)
  | 0x8, 0xE => some (.shiftLeft o.x o.y)
  | 0x9, 0x0 => some (.skipUnlessSame o.x o.y)
  | 0xA, _ => some (.setIndex o.address)
  | 0xB, _ => some (.jumpOffset o.address)
  | 0xC, _ => some (.random o.x o.byte)
  | 0xD, _ => some (.draw o.x o.y o.n)
  | 0xE, 0x9E => some (.skipIfHeld o.x)
  | 0xE, 0xA1 => some (.skipUnlessHeld o.x)
  | 0xF, 0x07 => some (.readDelay o.x)
  | 0xF, 0x0A => some (.waitKey o.x)
  | 0xF, 0x15 => some (.setDelay o.x)
  | 0xF, 0x18 => some (.setSound o.x)
  | 0xF, 0x1E => some (.addIndex o.x)
  | 0xF, 0x29 => some (.pointGlyph o.x)
  | 0xF, 0x33 => some (.storeDigits o.x)
  | 0xF, 0x55 => some (.storeRegisters o.x)
  | 0xF, 0x65 => some (.loadRegisters o.x)
  | _, _ => none

example : familyMasks =
    [(0x0, 0xFFFF), (0x5, 0xF00F), (0x8, 0xF00F), (0x9, 0xF00F), (0xE, 0xF0FF), (0xF, 0xF0FF)] :=
  rfl

end Instruction

end Chip8
