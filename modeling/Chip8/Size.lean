/-
  How much can be asked for at once. A size has to fit into a machine word, which has a sign, and
  what it asks for has to fit into memory. How much memory there is, is up to the host.
-/
import Chip8.Fault
namespace Chip8

/-- A number that fits into a machine word of 64 bits. -/
def fitsWord (i : Int) : Bool := -0x8000000000000000 ≤ i && i < 0x8000000000000000

/-- A number that fits into half a machine word. -/
def fitsHalfWord (i : Int) : Bool := -0x80000000 ≤ i && i < 0x80000000

/-- The largest size of a block whose end, with the 33 bytes that come in front of a block, can be
held in a machine word. -/
def maxBlockSize : Nat := 0x7FFFFFFFFFFFFFDE

/-- How much the host has memory for. It is enough for what a guest can address. -/
class Capacity where
  /-- The most cells of a bank. -/
  cells : Nat
  /-- The most zeros of a block. They take up less than the cells of a bank, until they are stored
  in one. -/
  zeros : Nat
  memorySize_le_cells : memorySize ≤ cells
  cells_le_zeros : cells ≤ zeros
  zeros_le_maxBlockSize : zeros ≤ maxBlockSize

/-- A host that has memory for what a guest can address, and for no more. -/
abbrev Capacity.least : Capacity where
  cells := memorySize
  zeros := memorySize
  memorySize_le_cells := Nat.le_refl memorySize
  cells_le_zeros := Nat.le_refl memorySize
  zeros_le_maxBlockSize := by decide

/-- What a host has memory for can be counted in a machine word. -/
theorem Capacity.cells_le_maxBlockSize [Capacity] : Capacity.cells ≤ maxBlockSize :=
  Nat.le_trans cells_le_zeros zeros_le_maxBlockSize

theorem fitsWord_of_le_maxBlockSize {size : Int} (hpos : 0 ≤ size) (h : size ≤ maxBlockSize) :
    fitsWord size = true := by
  have hmax : maxBlockSize = 0x7FFFFFFFFFFFFFDE := rfl
  simp only [fitsWord, Bool.and_eq_true, decide_eq_true_eq]
  omega

/-- The number of cells that a size asks for. -/
def cellCount [Capacity] (size : Int) : Except Failure Nat :=
  if !fitsWord size then .error (.misuse .overflow)
  else if size < 0 then .error (.misuse .valueOutOfRange)
  else if Capacity.cells < size then .error (.misuse .outOfMemory)
  else .ok size.toNat

/-- A size is granted exactly if it is not negative and there is memory for it. -/
theorem cellCount_eq_ok_iff [Capacity] {size : Int} {n : Nat} :
    cellCount size = .ok n ↔ size = n ∧ n ≤ Capacity.cells := by
  have hmax := Capacity.cells_le_maxBlockSize
  unfold cellCount
  constructor
  · intro h
    split at h
    · cases h
    · split at h
      · cases h
      · split at h
        · cases h
        · cases h
          omega
  · rintro ⟨rfl, hn⟩
    rw [fitsWord_of_le_maxBlockSize (by omega) (by omega), if_neg (by decide), if_neg (by omega),
      if_neg (by omega), Int.toNat_natCast]

end Chip8
