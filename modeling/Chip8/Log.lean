/-
  The log: what a session and its host have to say, each record with a level and the channel of
  the part that says it.
-/
import Chip8.Snapshot
namespace Chip8

/-- Whether a session runs. -/
inductive Status where
  | running
  | paused
  | off
  deriving DecidableEq

/-- The text of a status. -/
def Status.name : Status → String
  | .running => "running"
  | .paused => "paused"
  | .off => "off"

/-- How urgent a record is. -/
inductive Level where
  | debug
  | info
  | warning
  | error
  deriving DecidableEq

namespace Level

/-- The place of a level, lowest first. -/
def rank : Level → Nat
  | .debug => 0
  | .info => 1
  | .warning => 2
  | .error => 3

/-- The text of a level. -/
def name : Level → String
  | .debug => "DEBUG"
  | .info => "INFO"
  | .warning => "WARNING"
  | .error => "ERROR"

/-- All levels, lowest first. -/
def all : List Level := [.debug, .info, .warning, .error]

/-- The level of a name. -/
def ofName? (name : String) : Option Level := all.find? (·.name == name)

end Level

/-- Something worth telling. -/
inductive Record where
  /-- An instruction is about to run. -/
  | trace (snapshot : Snapshot)
  /-- A word that is no instruction was passed over. -/
  | unknownWord (word address : Int)
  | loaded (size : Nat) (platform : String)
  | finished (steps : Nat)
  /-- A session was switched off by a fault. -/
  | halted (fault : Fault) (snapshot : Snapshot)
  /-- The user has paused or resumed the session. -/
  | toggled (status : Status)
  /-- The whole run has ended with a fault. -/
  | stopped (fault : Fault)
  deriving DecidableEq

namespace Record

/-- The level of a record. -/
def level : Record → Level
  | .trace _ => .debug
  | .unknownWord .. => .warning
  | .loaded .. | .finished _ | .toggled _ => .info
  | .halted .. | .stopped _ => .error

/-- The channel of a record. -/
def channel : Record → String
  | .trace _ => "vchip.tracer"
  | .unknownWord .. => "vchip.cpu"
  | .loaded .. | .finished _ | .halted .. => "vchip.system"
  | .toggled _ => "vchip.emulator"
  | .stopped _ => "vchip"

/-- The text of a record. -/
def message : Record → String
  | .trace snapshot => snapshot.line
  | .unknownWord word address =>
    "Unknown opcode 0x" ++ Text.Hex.text 4 word ++ " at address 0x" ++ Text.Hex.text 3 address ++
      " ignored"
  | .loaded size platform =>
    "Loaded " ++ toString size ++ " byte program on the " ++ platform ++ " platform"
  | .finished steps => "Program finished after " ++ toString steps ++ " steps"
  | .halted fault snapshot => "Emulation halted: " ++ fault.message ++ "\n" ++ snapshot.report
  | .toggled status => "Session " ++ status.name
  | .stopped fault => "Program stopped with a fault: " ++ fault.message

/-- The level, channel and text of a record. -/
def line (r : Record) : String := r.level.name ++ " " ++ r.channel ++ ": " ++ r.message

/-- The lines of the records of a level or above it. -/
def linesFrom (threshold : Level) (records : List Record) : List String :=
  (records.filter fun r => threshold.rank ≤ r.level.rank).map line

end Record

end Chip8
