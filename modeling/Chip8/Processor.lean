/-
  The processor fetches a word, executes its instruction and lets the timers count down. It
  draws random numbers from a stream, and tells of each instruction if it is tracing. A word
  that is no instruction changes nothing when it is executed, and a step moves past it.
-/
import Chip8.Effect
import Chip8.Instruction.Mnemonic
import Chip8.Log
namespace Chip8

/-- A stream of random numbers, and how many of them were taken. It is dry where it has none. -/
structure Source where
  stream : Nat → Option Int
  taken : Nat := 0

/-- The next number of a source, and the source without it. -/
def Source.next (s : Source) : Except Failure (Int × Source) :=
  match s.stream s.taken with
  | some number => .ok (number, { s with taken := s.taken + 1 })
  | none => .error (.misuse .sourceDry)

/-- A processor for one platform. -/
structure Processor where
  platform : Platform
  source : Source
  /-- Each instruction is told of before it runs. -/
  tracing : Bool := false
  /-- The last word that was fetched. -/
  opcode : Int := 0

/-- What running guest code leaves behind. -/
structure Run (α : Type) where
  result : Except Failure α
  processor : Processor
  machine : Machine
  log : List Record

namespace Processor

/-- The word at the counter, which the processor remembers. -/
def fetch (cpu : Processor) (m : Machine) : Except Failure Int × Processor :=
  if m.fetchInBounds then (.ok m.word, { cpu with opcode := m.word })
  else (.error (.fault (.counterOutside m.counter)), cpu)

/-- What a tracing processor tells before an instruction. -/
def traceOf (cpu : Processor) (word : Int) (i : Instruction) (m : Machine) : List Record :=
  if cpu.tracing then [.trace (Snapshot.ofMachine m word (i.mnemonic cpu.platform.dialect))]
  else []

/-- The number that an instruction is given, and the source afterwards. -/
def numberFor (cpu : Processor) (i : Instruction) : Except Failure (Int × Source) :=
  if i.isRandom then cpu.source.next else .ok (0, cpu.source)

/-- Executes one word. The result says whether it is an instruction. -/
def execute (cpu : Processor) (word : Int) (m : Machine) : Run Bool :=
  match Instruction.ofWord? word with
  | none => ⟨.ok false, cpu, m, [.unknownWord word m.counter]⟩
  | some i =>
    match cpu.numberFor i with
    | .error e => ⟨.error e, cpu, m, cpu.traceOf word i m⟩
    | .ok (number, source) =>
      let outcome := i.effect cpu.platform number m
      { result := match outcome.failure with
          | none => .ok true
          | some e => .error e
        processor := { cpu with source := source }
        machine := outcome.machine
        log := cpu.traceOf word i m }

/-- Runs one instruction and counts the timers down. There is no result once the program has
finished; otherwise the result says whether the tone sounds during this step. -/
def step (cpu : Processor) (m : Machine) : Run (Option Bool) :=
  if m.isFinished then ⟨.ok none, cpu, m, []⟩
  else
    match cpu.fetch m with
    | (.error e, cpu) => ⟨.error e, cpu, m, []⟩
    | (.ok word, cpu) =>
      let run := cpu.execute word m
      match run.result with
      | .error e => ⟨.error e, run.processor, run.machine, run.log⟩
      | .ok known =>
        let m := if known then run.machine else run.machine.advance
        ⟨.ok (some (decide (0 < m.sound))), run.processor, m.countDown, run.log⟩

end Processor

end Chip8
