/-
  A bank of bytes that is read and written by the byte and by the block. Of a block only the
  last location is compared with the size of the bank; what happens to one that starts before
  the bank is said at each operation.
-/
import Chip8.Size
namespace Chip8

/-- A bank of bytes. -/
structure Ram where
  cells : Array UInt8
  deriving DecidableEq

/-- The byte with the given value, if there is one. -/
def byte? (value : Int) : Option UInt8 :=
  if 0 ≤ value ∧ value < 256 then some (UInt8.ofNat value.toNat) else none

namespace Ram

/-- The number of bytes. -/
def size (r : Ram) : Nat := r.cells.size

/-- A bank of zeros. -/
def ofSize [Capacity] (size : Int) : Except Failure Ram := do
  return ⟨Array.replicate (← cellCount size) 0⟩

/-- Refuses a location outside the bank. -/
def check (r : Ram) (location : Int) : Except Failure Unit :=
  if 0 ≤ location ∧ location < r.size then .ok ()
  else .error (.fault (.memoryOverflow location))

/-- Writes bytes one after another from a cell onward, and drops those past the end. -/
def overwrite : Array UInt8 → Nat → List UInt8 → Array UInt8
  | cells, _, [] => cells
  | cells, i, b :: bs => overwrite (cells.setIfInBounds i b) (i + 1) bs

/-- The byte at a location. -/
def read (r : Ram) (location : Int) : Except Failure UInt8 := do
  r.check location
  return r.cells.getD location.toNat 0

/-- The bank with a byte stored at a location. -/
def store (r : Ram) (location : Int) (b : UInt8) : Except Failure Ram := do
  r.check location
  return ⟨r.cells.setIfInBounds location.toNat b⟩

/-- The bank with a number stored at a location, which must be a byte. -/
def write (r : Ram) (location value : Int) : Except Failure Ram := do
  r.check location
  match byte? value with
  | some b => r.store location b
  | none => throw (.misuse .valueOutOfRange)

/-- The first cell of a block: a negative location counts from the end of the bank, and stops
at its start. -/
def firstCell (r : Ram) (location : Int) : Nat :=
  if location < 0 then (location + r.size).toNat else location.toNat

/-- The bytes from a location up to the one `size` further on. -/
def readBlock (r : Ram) (location size : Int) : Except Failure (List UInt8) := do
  r.check (location + size - 1)
  return (r.cells.extract (r.firstCell location) (location + size).toNat).toList

/-- The bank with a block stored from a location onward. A block that starts before the bank is
refused, even when its last byte is inside. -/
def writeBlock (r : Ram) (location : Int) (block : List UInt8) : Except Failure Ram := do
  r.check (location + block.length - 1)
  if location < 0 then throw (.misuse .valueOutOfRange)
  return ⟨overwrite r.cells location.toNat block⟩

/-- What is wrong with zeros that would start before the bank, or have a negative size. Such zeros
may be too many to be asked for at all. -/
def misplacedZeros [Capacity] (size : Int) : Misuse :=
  if !fitsWord size || maxBlockSize < size then .overflow
  else if Capacity.zeros < size then .outOfMemory
  else .valueOutOfRange

/-- The bank with zeros stored from a location onward, on the terms of a block. -/
def zeroBlock [Capacity] (r : Ram) (location size : Int) : Except Failure Ram := do
  r.check (location + size - 1)
  if size < 0 ∨ location < 0 then throw (.misuse (misplacedZeros size))
  return ⟨overwrite r.cells location.toNat (List.replicate size.toNat 0)⟩

/-- The bank with every byte zero. A bank without bytes has no last location, and is refused. -/
def clear (r : Ram) : Except Failure Ram := do
  r.check (r.size - 1)
  return ⟨overwrite r.cells 0 (List.replicate r.size 0)⟩

/-- The bank with a number stored in the cell at an index; a negative index counts from the
end. -/
def assign (r : Ram) (index value : Int) : Except Failure Ram :=
  let i := if index < 0 then index + r.size else index
  if 0 ≤ i ∧ i < r.size then
    match byte? value with
    | some b => .ok ⟨r.cells.setIfInBounds i.toNat b⟩
    | none => .error (.misuse .valueOutOfRange)
  else .error (.misuse .indexOutOfRange)

/-! ## Sizes and contents -/

theorem size_overwrite (cells : Array UInt8) (i : Nat) (bs : List UInt8) :
    (overwrite cells i bs).size = cells.size := by
  induction bs generalizing cells i with
  | nil => rfl
  | cons b bs ih => simp only [overwrite, ih, Array.size_setIfInBounds]

/-- A cell inside the block holds its byte of the block, and any other cell what it held. -/
theorem getElem?_overwrite (cells : Array UInt8) (i : Nat) (bs : List UInt8) (j : Nat) :
    (overwrite cells i bs)[j]? =
      if i ≤ j ∧ j < i + bs.length ∧ j < cells.size then bs[j - i]? else cells[j]? := by
  induction bs generalizing cells i with
  | nil =>
    rw [overwrite, if_neg]
    simp only [List.length_nil]
    omega
  | cons b bs ih =>
    rw [overwrite, ih]
    simp only [Array.size_setIfInBounds, List.length_cons, Array.getElem?_setIfInBounds]
    by_cases hij : i = j
    · subst hij
      rw [if_neg (by omega), if_pos rfl]
      by_cases hs : i < cells.size
      · rw [if_pos hs, if_pos (by omega), Nat.sub_self]
        rfl
      · rw [if_neg hs, if_neg (by omega), Array.getElem?_eq_none (by omega)]
    · rw [if_neg hij]
      by_cases h : i + 1 ≤ j ∧ j < i + 1 + bs.length ∧ j < cells.size
      · rw [if_pos h, if_pos (by omega), show j - i = (j - (i + 1)) + 1 by omega]
        rfl
      · rw [if_neg h, if_neg (by omega)]

/-- To clear a bank is to store as many zeros in it as it has bytes. They are in their place, so it
does not matter how many there could be. -/
theorem clear_eq_zeroBlock [Capacity] (r : Ram) : r.clear = r.zeroBlock 0 r.size := by
  have hplace : ¬ ((r.size : Int) < 0 ∨ (0 : Int) < 0) := by omega
  rw [clear, zeroBlock, Int.zero_add, if_neg hplace, Int.toNat_natCast]
  rfl

theorem check_eq_ok_iff {r : Ram} {location : Int} {u : Unit} :
    r.check location = .ok u ↔ 0 ≤ location ∧ location < r.size := by
  unfold check
  split <;> simp_all

end Ram

end Chip8
