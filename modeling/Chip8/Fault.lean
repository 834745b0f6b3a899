/-
  What can go wrong. A fault is the guest program's doing, and ends its session; a misuse is a
  request of the host that has no meaning, and is handed back to the host.
-/
import Chip8.Layout
import Chip8.Text.Hex
namespace Chip8

/-- A mistake of the guest program. -/
inductive Fault where
  /-- A byte outside the memory was asked for. -/
  | memoryOverflow (location : Int)
  /-- A call was made with all slots of the call stack in use. -/
  | stackOverflow
  /-- A return was made with no call open. -/
  | stackUnderflow
  /-- The program counter left no room for a whole instruction. -/
  | counterOutside (counter : Int)
  /-- The program does not fit between its start and the end of the memory. -/
  | programTooLong (size : Nat)
  deriving DecidableEq

/-- A request of the host that has no meaning. -/
inductive Misuse where
  /-- A value has no meaning in its place, such as a size below zero. -/
  | valueOutOfRange
  /-- A number is too far from zero for the machine word that is to hold it. -/
  | overflow
  /-- More memory is asked for than there is. -/
  | outOfMemory
  /-- An index names no element. -/
  | indexOutOfRange
  /-- A remainder by zero was asked for. -/
  | divisionByZero
  /-- A random number was asked for where there is none. -/
  | sourceDry
  deriving DecidableEq

/-- Either kind of failure. -/
inductive Failure where
  | fault (f : Fault)
  | misuse (m : Misuse)
  deriving DecidableEq

/-- The text of a fault. -/
def Fault.message : Fault → String
  | .memoryOverflow location => "Memory overflow at 0x" ++ Text.Hex.text 4 location
  | .stackOverflow => "Stack overflow"
  | .stackUnderflow => "Stack underflow"
  | .counterOutside counter =>
    "Program counter 0x" ++ Text.Hex.text 4 counter ++ " is outside of memory"
  | .programTooLong size =>
    "Program is " ++ toString size ++ " bytes, but only " ++ toString maxProgramSize ++
      " bytes are available from 0x" ++ Text.Hex.text 3 programStart

end Chip8
