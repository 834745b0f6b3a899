/-
  The guest's memory: exactly one byte for each address. Reading and writing at an address
  cannot fail; a block from the host can, on the terms of a bank of that size.
-/
import Chip8.Ram
namespace Chip8

/-- One byte for each address. -/
abbrev Memory := Vector UInt8 memorySize

namespace Memory

/-- The memory as a bank of bytes. -/
def toRam (m : Memory) : Ram := ⟨m.toArray⟩

/-- The memory with bytes stored from an address onward; those past the end are dropped. -/
def overlay (m : Memory) (start : Nat) (block : List UInt8) : Memory :=
  ⟨Ram.overwrite m.toArray start block, by rw [Ram.size_overwrite]; exact m.size_toArray⟩

/-- The memory with a block stored from a location onward. -/
def writeBlock (m : Memory) (location : Int) (block : List UInt8) : Except Failure Memory := do
  m.toRam.check (location + block.length - 1)
  if location < 0 then throw (.misuse .valueOutOfRange)
  return m.overlay location.toNat block

/-- The memory of a machine that has no program: the font, and zeros. -/
def initial : Memory := overlay (Vector.replicate memorySize 0) fontLocation font

/-- A block write is the write to the bank. -/
theorem toRam_writeBlock (m : Memory) (location : Int) (block : List UInt8) :
    (m.writeBlock location block).map toRam = m.toRam.writeBlock location block := by
  unfold writeBlock Ram.writeBlock
  cases m.toRam.check (location + block.length - 1) with
  | error e => rfl
  | ok u =>
    simp only [bind, Except.bind]
    split <;> rfl

end Memory

end Chip8
