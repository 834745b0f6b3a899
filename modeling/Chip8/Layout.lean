/-
  The guest's address space: 4096 bytes, with the built-in hexadecimal font at the bottom and
  the program from 0x200 upwards.
-/
namespace Chip8

/-- The number of bytes that the guest can address. -/
abbrev memorySize : Nat := 0x1000

/-- An address of the guest. -/
abbrev Address := Fin memorySize

/-- The bits of an address. -/
def addressMask : Nat := memorySize - 1

/-- Where the font begins. -/
abbrev fontLocation : Nat := 0x000

/-- Where a program begins. -/
abbrev programStart : Nat := 0x200

/-- The most bytes that a program may have. -/
abbrev maxProgramSize : Nat := memorySize - programStart

/-- The number of general registers. -/
abbrev registerCount : Nat := 0x10

/-- A general register. -/
abbrev Register := Fin registerCount

/-- The register that instructions use as a flag. -/
def flagRegister : Register := ⟨0xF, by decide⟩

/-- The most calls that can be open at once. -/
abbrev stackDepth : Nat := 16

/-- The number of keys of the guest's keypad. -/
abbrev keyCount : Nat := 0x10

/-- A key of the guest's keypad. -/
abbrev Key := Fin keyCount

/-- The glyphs of the digits 0 to F, five bytes each. -/
def font : List UInt8 :=
  [0xF0, 0x90, 0x90, 0x90, 0xF0,  -- 0
   0x20, 0x60, 0x20, 0x20, 0x70,  -- 1
   0xF0, 0x10, 0xF0, 0x80, 0xF0,  -- 2
   0xF0, 0x10, 0xF0, 0x10, 0xF0,  -- 3
   0x90, 0x90, 0xF0, 0x10, 0x10,  -- 4
   0xF0, 0x80, 0xF0, 0x10, 0xF0,  -- 5
   0xF0, 0x80, 0xF0, 0x90, 0xF0,  -- 6
   0xF0, 0x10, 0x20, 0x40, 0x40,  -- 7
   0xF0, 0x90, 0xF0, 0x90, 0xF0,  -- 8
   0xF0, 0x90, 0xF0, 0x10, 0xF0,  -- 9
   0xF0, 0x90, 0xF0, 0x90, 0x90,  -- A
   0xE0, 0x90, 0xE0, 0x90, 0xE0,  -- B
   0xF0, 0x80, 0x80, 0x80, 0xF0,  -- C
   0xE0, 0x90, 0x90, 0x90, 0xE0,  -- D
   0xF0, 0x80, 0xF0, 0x80, 0xF0,  -- E
   0xF0, 0x80, 0xF0, 0x80, 0x80]  -- F

/-- An address from any integer, of which the low twelve bits count. -/
def Address.ofInt (i : Int) : Address :=
  ⟨(i % memorySize).toNat, by simp only [memorySize]; omega⟩

theorem Address.val_ofInt (i : Int) : ((Address.ofInt i).val : Int) = i % 4096 := by
  simp only [Address.ofInt, memorySize]
  omega

theorem Address.ofInt_congr {i j : Int} (h : 4096 ∣ j - i) :
    Address.ofInt j = Address.ofInt i := by
  apply Fin.ext
  simp only [Address.ofInt, memorySize]
  omega

theorem Address.ofInt_add_congr {i j : Int} (h : 4096 ∣ j - i) (k : Int) :
    Address.ofInt (j + k) = Address.ofInt (i + k) :=
  ofInt_congr (by omega)

example : font.length = 5 * keyCount := rfl

end Chip8
