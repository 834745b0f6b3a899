/-
  Snapshots: what a trace line or a fault report says about a machine. The registers run
  together from VF down to V0. A report adds the entries of the call stack, oldest first.
-/
import Chip8.Machine
namespace Chip8

open Text

/-- The part of a machine that a report shows, and the instruction it was about to run. -/
structure Snapshot where
  registers : Vector UInt8 registerCount
  index : Int
  delay : Int
  sound : Int
  counter : Int
  opcode : Int
  /-- The text of the instruction. -/
  instruction : String
  /-- The entries of the call stack, oldest first. -/
  stack : List Int
  deriving DecidableEq

namespace Snapshot

/-- The snapshot of a machine. -/
def ofMachine (m : Machine) (opcode : Int) (instruction : String) : Snapshot :=
  ⟨m.registers, m.index, m.delay, m.sound, m.counter, opcode, instruction, m.stack.entries⟩

/-- The trace line. -/
def line (s : Snapshot) : String :=
  "V: 0x" ++ Hex.bytes s.registers.toList.reverse ++
  " I: 0x" ++ Hex.text 4 s.index ++
  " DT: 0x" ++ Hex.text 2 s.delay ++
  " ST: 0x" ++ Hex.text 2 s.sound ++
  " PC: 0x" ++ Hex.text 3 s.counter ++
  " OP: 0x" ++ Hex.text 4 s.opcode ++
  " IN: " ++ s.instruction

/-- The text of the call stack. -/
def stackText (entries : List Int) : String :=
  match entries with
  | [] => " (Empty)"
  | _ => String.join (entries.map fun e => " 0x" ++ Hex.text 3 e)

/-- The trace line, and a second line with the call stack. -/
def report (s : Snapshot) : String := s.line ++ "\nStack:" ++ stackText s.stack

end Snapshot

end Chip8
