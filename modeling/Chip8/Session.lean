/-
  A session wraps one machine for the host: whether it runs, is paused or off, whether the tone
  sounds, and the fault that ended it. It runs a frame's worth of steps at a time. A fault of
  the guest switches the session off; a misuse of the host is handed back to the host.
-/
import Chip8.Processor
namespace Chip8

/-- A machine in the care of a host. -/
structure Session where
  processor : Processor
  machine : Machine
  status : Status := .off
  /-- The tone sounds. -/
  tone : Bool := false
  fault : Option Fault := none
  /-- The steps taken since the program was loaded. -/
  steps : Nat := 0

/-- What an operation on a session leaves behind. -/
structure Reply (α : Type) where
  result : Except Failure α
  session : Session
  log : List Record

namespace Session

/-- A session without a program, switched off. -/
def new [Capacity] (cpu : Processor) : Except Failure Session := do
  return { processor := cpu, machine := ← Machine.new cpu.platform }

/-- Starts a program on a new machine. A program that does not fit changes nothing. -/
def load [Capacity] (s : Session) (program : List UInt8) : Reply Unit :=
  match Machine.new s.processor.platform >>= (·.load program) with
  | .error e => ⟨.error e, s, []⟩
  | .ok machine =>
    ⟨.ok (), { processor := s.processor, machine := machine, status := .running },
      [.loaded program.length s.processor.platform.name]⟩

/-- The session is running. -/
def isRunning (s : Session) : Bool := s.status == .running

/-- Switches between running and paused. A session that is off stays off. -/
def pause (s : Session) : Session :=
  match s.status with
  | .running => { s with status := .paused, tone := false }
  | .paused => { s with status := .running }
  | .off => s

/-- Switches the session off. -/
def powerOff (s : Session) : Session := { s with status := .off, tone := false }

/-- Runs one step. The result says whether an instruction was executed. -/
def step (s : Session) : Reply Bool :=
  if s.isRunning then
    let run := s.processor.step s.machine
    let s := { s with processor := run.processor, machine := run.machine }
    match run.result with
    | .error (.fault f) =>
      ⟨.ok false, { s.powerOff with fault := some f },
        run.log ++ [.halted f (Snapshot.ofMachine run.machine run.processor.opcode "???")]⟩
    | .error (.misuse e) => ⟨.error (.misuse e), s, run.log⟩
    | .ok none => ⟨.ok false, s.powerOff, run.log ++ [.finished s.steps]⟩
    | .ok (some tone) => ⟨.ok true, { s with tone := tone, steps := s.steps + 1 }, run.log⟩
  else ⟨.ok false, s, []⟩

/-- Runs up to a number of steps: until one executes nothing, or a sprite draw ends the frame.
The count and the log so far are carried along. -/
def ticks : Nat → Session → Nat → Array Record → Reply Nat
  | 0, s, executed, log => ⟨.ok executed, s, log.toList⟩
  | n + 1, s, executed, log =>
    let r := s.step
    let log := log ++ r.log
    match r.result with
    | .error e => ⟨.error e, r.session, log.toList⟩
    | .ok false => ⟨.ok executed, r.session, log.toList⟩
    | .ok true =>
      if r.session.machine.awaitingBlank then ⟨.ok (executed + 1), r.session, log.toList⟩
      else ticks n r.session (executed + 1) log

/-- Runs one frame. The result is the number of instructions executed. -/
def runFrame (s : Session) : Reply Nat :=
  let r := ticks s.processor.platform.tickRate.toNat s 0 #[]
  match r.result with
  | .error _ => r
  | .ok _ =>
    { r with session :=
        { r.session with machine := { r.session.machine with awaitingBlank := false } } }

/-- Sets the keys from key 0 upwards, and leaves those that are not given. There is no key for
a state past the last key, which is refused once the others are set. -/
def setKeys (s : Session) (states : List Bool) : Except Failure Unit × Session :=
  let keypad := s.machine.keypad.mapIdx fun k held => states.getD k held
  (if keypad.size < states.length then .error (.misuse .indexOutOfRange) else .ok (),
    { s with machine := { s.machine with keypad := keypad } })

/-- Releases all keys. -/
def clearKeys (s : Session) : Session :=
  { s with machine := { s.machine with keypad := s.machine.keypad.map fun _ => false } }

/-- The screen as text. -/
def text (s : Session) : Except Failure String :=
  s.machine.screen.text Screen.defaultOn Screen.defaultOff

end Session

end Chip8
