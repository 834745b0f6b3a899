/-
  The machine: everything that a guest program can change. A machine is made afresh for each
  program and is never reset. The host sets the keypad before a step and reads the screen after
  it.
-/
import Chip8.CallStack
import Chip8.Memory
import Chip8.Platform
import Chip8.Screen
namespace Chip8

/-- The state of a guest. -/
structure Machine where
  memory : Memory
  /-- The general registers V0 to VF. -/
  registers : Vector UInt8 registerCount
  /-- The index register I. -/
  index : Int
  /-- The address of the next instruction. -/
  counter : Int
  stack : CallStack
  /-- The delay timer. -/
  delay : Int
  /-- The sound timer. -/
  sound : Int
  screen : Screen
  /-- Which keys are held, from key 0 upwards. -/
  keypad : Array Bool
  /-- The address after the last byte of the program. -/
  programEnd : Int
  /-- A sprite was drawn, and the frame should end. -/
  awaitingBlank : Bool
  deriving DecidableEq

namespace Machine

/-- A machine without a program. -/
def new [Capacity] (p : Platform) : Except Failure Machine := do
  return {
    memory := Memory.initial
    registers := Vector.replicate registerCount 0
    index := 0
    counter := programStart
    stack := CallStack.ofCapacity stackDepth
    delay := 0
    sound := 0
    screen := ← Screen.ofSize p.width p.height p.dialect.spritesWrap
    keypad := Array.replicate keyCount false
    programEnd := programStart
    awaitingBlank := false }

/-- The machine with a program stored at the program start. -/
def load (m : Machine) (program : List UInt8) : Except Failure Machine :=
  if maxProgramSize < program.length then .error (.fault (.programTooLong program.length))
  else .ok { m with
    memory := m.memory.overlay programStart program
    programEnd := programStart + program.length }

/-- The value of a register. -/
def reg (m : Machine) (x : Register) : UInt8 := m.registers[x]

/-- The value of the flag register. -/
def flag (m : Machine) : UInt8 := m.reg flagRegister

/-- The machine with a value in a register. -/
def setReg (m : Machine) (x : Register) (b : UInt8) : Machine :=
  { m with registers := m.registers.set x b }

/-- The machine with a value in the flag register. -/
def setFlag (m : Machine) (b : UInt8) : Machine := m.setReg flagRegister b

/-- The byte at an integer's address. -/
def byteAt (m : Machine) (i : Int) : UInt8 := m.memory[Address.ofInt i]

/-- The machine with a byte stored at an integer's address. -/
def setByteAt (m : Machine) (i : Int) (b : UInt8) : Machine :=
  { m with memory := m.memory.set (Address.ofInt i) b }

/-- The machine past its instruction. -/
def advance (m : Machine) : Machine := { m with counter := m.counter + 2 }

/-- The machine past its instruction, and past the next one if a condition holds. -/
def skipIf (m : Machine) (condition : Bool) : Machine :=
  if condition then m.advance.advance else m.advance

/-- The counter has reached the end of the program. -/
def isFinished (m : Machine) : Bool := m.programEnd ≤ m.counter

/-- A whole instruction fits between the counter and the end of the memory. -/
def fetchInBounds (m : Machine) : Bool := 0 ≤ m.counter && m.counter ≤ memorySize - 2

/-- The instruction word at the counter, high byte first. -/
def word (m : Machine) : Nat := (m.byteAt m.counter).toNat * 256 + (m.byteAt (m.counter + 1)).toNat

/-- The machine after the timers have counted down. -/
def countDown (m : Machine) : Machine :=
  { m with
    delay := if 0 < m.delay then m.delay - 1 else m.delay
    sound := if 0 < m.sound then m.sound - 1 else m.sound }

/-- A register names a held key. A value above F names no key. -/
def keyHeld (m : Machine) (x : Register) : Except Failure Bool :=
  if keyCount ≤ (m.reg x).toNat then .ok false
  else
    match m.keypad[(m.reg x).toNat]? with
    | some held => .ok held
    | none => .error (.misuse .indexOutOfRange)

/-- The lowest key that is held. -/
def lowestKey? (m : Machine) : Option Nat := m.keypad.toList.findIdx? id

theorem isSome_lowestKey?_iff {m : Machine} :
    m.lowestKey?.isSome = true ↔ true ∈ m.keypad := by
  rw [lowestKey?, List.findIdx?_isSome, List.any_eq_true]
  constructor
  · rintro ⟨held, hmem, rfl⟩
    exact Array.mem_toList_iff.mp hmem
  · intro h
    exact ⟨true, Array.mem_toList_iff.mpr h, rfl⟩

/-- Integers that agree in their low twelve bits are at the same byte. -/
theorem byteAt_congr {m n : Machine} (hmemory : n.memory = m.memory) {i j : Int}
    (h : 4096 ∣ j - i) : n.byteAt j = m.byteAt i := by
  simp only [byteAt, hmemory, Address.ofInt_congr h]

theorem word_lt (m : Machine) : m.word < 0x10000 := by
  have h := (m.byteAt m.counter).toNat_lt
  have l := (m.byteAt (m.counter + 1)).toNat_lt
  simp only [word]
  omega

end Machine

end Chip8
