/-
  Instructions are all or nothing. On a machine whose parts have their sizes, whatever else it
  holds, an instruction that fails and a word that is no instruction leave every part of the
  machine as it was, and so does a step that fails: the timers have not counted down either. A
  session that is ended by a fault keeps its machine and its count of steps.
-/
import Chip8.Proofs.Course
namespace Chip8

namespace Processor

variable {cpu : Processor} {m : Machine} {i : Instruction}

theorem numberFor_of_not_random (h : i.isRandom = false) :
    cpu.numberFor i = .ok (0, cpu.source) := by
  unfold numberFor
  rw [h]
  rfl

/-- The word of an instruction that takes no random number is done, unless something stops it. -/
theorem execute_word (cpu : Processor) (h : i.isRandom = false)
    (he : (i.effect cpu.platform 0 m).failure = none) :
    cpu.execute i.word m =
      ⟨.ok true, cpu, (i.effect cpu.platform 0 m).machine, cpu.traceOf i.word i m⟩ :=
  execute_done cpu (Instruction.ofWord?_word i) (numberFor_of_not_random h) he

/-- An instruction that can be stopped takes no random number. -/
theorem isRandom_of_failureOn {e : Failure} (h : i.failureOn m = some e) : i.isRandom = false := by
  cases i with
  | random x mask => cases h
  | _ => rfl

theorem execute_machine_of_not_done (hm : m.Shaped) {word : Int}
    (h : (cpu.execute word m).result ≠ .ok true) : (cpu.execute word m).machine = m := by
  cases hi : Instruction.ofWord? word with
  | none => rw [execute_unknown cpu hi]
  | some i =>
    cases hn : cpu.numberFor i with
    | error e => rw [execute_dry cpu hi hn]
    | ok r =>
      obtain ⟨number, source⟩ := r
      cases he : (i.effect cpu.platform number m).failure with
      | none =>
        rw [execute_done cpu hi hn he] at h
        exact absurd rfl h
      | some e =>
        rw [execute_stopped cpu hi hn he]
        exact Instruction.machine_of_failure hm he

/-- A step that fails leaves the machine, and of the processor only the word changes. -/
theorem step_of_error (hm : m.Shaped) {e : Failure} (h : (cpu.step m).result = .error e) :
    (cpu.step m).machine = m ∧
      ∃ opcode, (cpu.step m).processor = { cpu with opcode := opcode } := by
  have hcourse := cpu.step_course m
  generalize cpu.step m = run at h hcourse ⊢
  cases hcourse with
  | finished | unknown | done => cases h
  | outside => exact ⟨rfl, cpu.opcode, rfl⟩
  | dry => exact ⟨rfl, _, rfl⟩
  | stopped hf hb hi hn he =>
    have hfailure := (Instruction.effect_failure hm _ _ _).1.symm.trans he
    rw [numberFor_of_not_random (isRandom_of_failureOn hfailure)] at hn
    cases hn
    exact ⟨Instruction.machine_of_failure hm he, _, rfl⟩

end Processor

theorem Session.step_of_fault {s : Session} (hs : s.isRunning = true) {f : Fault}
    (h : (s.processor.step s.machine).result = .error (.fault f)) :
    s.step.result = .ok false ∧ s.step.session = { s.ran.powerOff with fault := some f } := by
  have hcourse := s.step_course
  generalize s.step = reply at hcourse ⊢
  cases hcourse with
  | idle hoff =>
    rw [hs] at hoff
    cases hoff
  | halted _ hr =>
    rw [h] at hr
    cases hr
    exact ⟨rfl, rfl⟩
  | refused _ hr | finished _ hr | ticked _ hr =>
    rw [h] at hr
    cases hr

/-- What fails changes nothing: neither a word that is executed, nor a step, nor the step of a
session, which is switched off with its fault. -/
theorem failure_changes_nothing {m : Machine} (hm : m.Shaped) :
    (∀ (cpu : Processor) (word : Int),
      (∃ e, (cpu.execute word m).result = .error e) ∨ (cpu.execute word m).result = .ok false →
        (cpu.execute word m).machine = m) ∧
    (∀ (cpu : Processor) (e : Failure),
      (cpu.step m).result = .error e → (cpu.step m).machine = m) ∧
    (∀ (s : Session) (f : Fault), s.machine = m → s.isRunning = true →
      (s.processor.step m).result = .error (.fault f) →
        s.step.result = .ok false ∧
          ∃ opcode, s.step.session = { s with
            processor := { s.processor with opcode := opcode }
            status := .off, tone := false, fault := some f }) := by
  refine ⟨?_, ?_, ?_⟩
  · intro cpu word h
    apply Processor.execute_machine_of_not_done hm
    rcases h with ⟨e, h⟩ | h
    · rw [h]; nofun
    · rw [h]; nofun
  · intro cpu e h
    exact (Processor.step_of_error hm h).1
  · intro s f hsm hs h
    subst hsm
    obtain ⟨hmachine, opcode, hcpu⟩ := Processor.step_of_error hm h
    obtain ⟨hresult, hsession⟩ := Session.step_of_fault hs h
    refine ⟨hresult, opcode, ?_⟩
    rw [hsession, Session.ran, hmachine, hcpu]
    rfl

/-- A machine that waits past the last whole word, with a delay timer that holds no byte. -/
def strandedMachine : Machine where
  memory := Memory.initial
  registers := Vector.replicate registerCount 0
  index := 0
  counter := 0xFFF
  stack := CallStack.ofCapacity stackDepth
  delay := 300
  sound := 0
  screen := ⟨1, 1, false, ⟨#[0]⟩⟩
  keypad := Array.replicate keyCount false
  programEnd := 0x1000
  awaitingBlank := false

theorem shaped_strandedMachine : strandedMachine.Shaped where
  stack := ⟨rfl, rfl, by decide⟩
  keypad := rfl
  width := by decide
  height := by decide
  filled := rfl

/-- A session with the stranded machine. -/
def strandedSession : Session where
  processor := { platform := Platform.preset "cosmacvip" 15 {}, source := ⟨fun _ => some 0, 0⟩ }
  machine := strandedMachine
  status := .running
  tone := true
  steps := 7

theorem failure_changes_nothing_stranded :
    strandedMachine.Shaped ∧
      (strandedSession.processor.execute 0xF007 strandedMachine).result =
        .error (.misuse .valueOutOfRange) ∧
      (strandedSession.processor.execute 0xF007 strandedMachine).machine = strandedMachine ∧
      (strandedSession.processor.step strandedMachine).result =
        .error (.fault (.counterOutside 0xFFF)) ∧
      (strandedSession.processor.step strandedMachine).machine = strandedMachine ∧
      ∃ opcode, strandedSession.step.session = { strandedSession with
        processor := { strandedSession.processor with opcode := opcode }
        status := .off, tone := false, fault := some (.counterOutside 0xFFF) } := by
  have hexecute : (strandedSession.processor.execute 0xF007 strandedMachine).result =
      .error (.misuse .valueOutOfRange) := rfl
  have hstep : (strandedSession.processor.step strandedMachine).result =
      .error (.fault (.counterOutside 0xFFF)) := rfl
  obtain ⟨executed, stepped, halted⟩ := failure_changes_nothing shaped_strandedMachine
  exact ⟨shaped_strandedMachine, hexecute, executed _ _ (Or.inl ⟨_, hexecute⟩), hstep,
    stepped _ _ hstep, (halted strandedSession _ rfl rfl hstep).2⟩

end Chip8
