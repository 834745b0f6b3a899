/-
  The courses that a step can take. `step_course` says once everything that one step can do: it
  finds the program finished, it finds no whole word at the counter, it passes over a word that is
  no instruction, it lacks a random number, or it runs an instruction, which is stopped or done.
  A session whose machine takes a step passes on what the step came to, or is switched off.
-/
import Chip8.Proofs.Encoding
import Chip8.Proofs.Failure
import Chip8.Session
namespace Chip8

instance {α : Type} [DecidableEq α] : DecidableEq (Except Failure α)
  | .ok a, .ok b => decidable_of_iff (a = b) ⟨congrArg _, Except.ok.inj⟩
  | .error e, .error f => decidable_of_iff (e = f) ⟨congrArg _, Except.error.inj⟩
  | .ok _, .error _ | .error _, .ok _ => isFalse nofun

namespace Machine

/-- The instruction word at the counter, if a whole one lies there. -/
def word? (m : Machine) : Option Nat := if m.fetchInBounds then some m.word else none

/-- The instruction at the counter, if the word there is one. -/
def instruction? (m : Machine) : Option Instruction :=
  m.word?.bind fun w => Instruction.ofWord? w

/-- The word that the next step fetches, unless the program has finished. -/
def fetched? (m : Machine) : Option Nat := if m.isFinished then none else m.word?

theorem fetched?_eq_none {m : Machine} (h : m.fetched? = none) :
    m.isFinished = true ∨ m.fetchInBounds = false := by
  unfold fetched? word? at h
  cases hf : m.isFinished with
  | true => exact Or.inl rfl
  | false =>
    cases hb : m.fetchInBounds with
    | false => exact Or.inr rfl
    | true =>
      rw [hf, hb] at h
      cases h

theorem fetchInBounds_iff {m : Machine} :
    m.fetchInBounds = true ↔ 0 ≤ m.counter ∧ m.counter ≤ 0xFFE := by
  simp only [fetchInBounds, memorySize, Bool.and_eq_true, decide_eq_true_eq]
  omega

theorem instruction?_of_inBounds {m : Machine} (hb : m.fetchInBounds = true) :
    m.instruction? = Instruction.ofWord? m.word := by
  rw [instruction?, word?, if_pos hb, Option.bind_some]

theorem instruction?_eq_some_iff {m : Machine} {i : Instruction} :
    m.instruction? = some i ↔ m.word? = some i.word := by
  cases hb : m.fetchInBounds with
  | true =>
    rw [instruction?_of_inBounds hb, Instruction.ofWord?_eq_some_iff m.word_lt, word?, if_pos hb,
      Option.some.injEq]
    exact eq_comm
  | false =>
    have hnone : m.word? = none := by simp only [word?, hb, Bool.false_eq_true, if_false]
    simp only [instruction?, hnone, Option.bind_none, reduceCtorEq]

theorem fetched?_eq_some_iff {m : Machine} {i : Instruction} :
    m.fetched? = some i.word ↔ m.isFinished = false ∧ m.instruction? = some i := by
  rw [instruction?_eq_some_iff, fetched?]
  cases m.isFinished with
  | true => exact ⟨nofun, nofun⟩
  | false => exact ⟨fun h => ⟨rfl, h⟩, And.right⟩

theorem isFinished_iff {m : Machine} : m.isFinished = true ↔ m.programEnd ≤ m.counter := by
  rw [isFinished, decide_eq_true_eq]

end Machine

namespace Source

theorem stream_next {s t : Source} {number : Int} (h : s.next = .ok (number, t)) :
    t.stream = s.stream := by
  unfold next at h
  split at h
  · simp only [Except.ok.injEq, Prod.mk.injEq] at h
    rw [← h.2]
  · cases h

end Source

namespace Processor

section Execute

variable (cpu : Processor) {word : Int} {m : Machine} {i : Instruction}

theorem execute_unknown (hi : Instruction.ofWord? word = none) :
    cpu.execute word m = ⟨.ok false, cpu, m, [.unknownWord word m.counter]⟩ := by
  unfold execute
  rw [hi]

theorem execute_dry (hi : Instruction.ofWord? word = some i) {e : Failure}
    (hn : cpu.numberFor i = .error e) :
    cpu.execute word m = ⟨.error e, cpu, m, cpu.traceOf word i m⟩ := by
  unfold execute
  rw [hi]
  dsimp only
  rw [hn]

theorem execute_stopped (hi : Instruction.ofWord? word = some i) {number : Int} {source : Source}
    (hn : cpu.numberFor i = .ok (number, source)) {e : Failure}
    (he : (i.effect cpu.platform number m).failure = some e) :
    cpu.execute word m = ⟨.error e, { cpu with source := source },
      (i.effect cpu.platform number m).machine, cpu.traceOf word i m⟩ := by
  simp only [execute, hi, hn, he]

theorem execute_done (hi : Instruction.ofWord? word = some i) {number : Int} {source : Source}
    (hn : cpu.numberFor i = .ok (number, source))
    (he : (i.effect cpu.platform number m).failure = none) :
    cpu.execute word m = ⟨.ok true, { cpu with source := source },
      (i.effect cpu.platform number m).machine, cpu.traceOf word i m⟩ := by
  simp only [execute, hi, hn, he]

end Execute

/-- What a step can do to a processor and a machine, and what it leaves behind. -/
inductive Course (cpu : Processor) (m : Machine) : Run (Option Bool) → Prop where
  /-- The program has finished. -/
  | finished (hf : m.isFinished = true) : Course cpu m ⟨.ok none, cpu, m, []⟩
  /-- No whole word lies at the counter. -/
  | outside (hf : m.isFinished = false) (hb : m.fetchInBounds = false) :
    Course cpu m ⟨.error (.fault (.counterOutside m.counter)), cpu, m, []⟩
  /-- The word is no instruction. -/
  | unknown (hf : m.isFinished = false) (hb : m.fetchInBounds = true)
    (hi : Instruction.ofWord? m.word = none) :
    Course cpu m ⟨.ok (some (decide (0 < m.sound))), { cpu with opcode := m.word },
      m.advance.countDown, [.unknownWord m.word m.counter]⟩
  /-- The instruction asks for a random number where there is none. -/
  | dry (hf : m.isFinished = false) (hb : m.fetchInBounds = true) {i : Instruction}
    (hi : Instruction.ofWord? m.word = some i) {e : Failure} (hn : cpu.numberFor i = .error e) :
    Course cpu m ⟨.error e, { cpu with opcode := m.word }, m, cpu.traceOf m.word i m⟩
  /-- Something stops the instruction. -/
  | stopped (hf : m.isFinished = false) (hb : m.fetchInBounds = true) {i : Instruction}
    (hi : Instruction.ofWord? m.word = some i) {number : Int} {source : Source}
    (hn : cpu.numberFor i = .ok (number, source)) {e : Failure}
    (he : (i.effect cpu.platform number m).failure = some e) :
    Course cpu m ⟨.error e, { cpu with opcode := m.word, source := source },
      (i.effect cpu.platform number m).machine, cpu.traceOf m.word i m⟩
  /-- The instruction is done, and the timers count down. -/
  | done (hf : m.isFinished = false) (hb : m.fetchInBounds = true) {i : Instruction}
    (hi : Instruction.ofWord? m.word = some i) {number : Int} {source : Source}
    (hn : cpu.numberFor i = .ok (number, source))
    (he : (i.effect cpu.platform number m).failure = none) :
    Course cpu m ⟨.ok (some (decide (0 < (i.effect cpu.platform number m).machine.sound))),
      { cpu with opcode := m.word, source := source },
      (i.effect cpu.platform number m).machine.countDown, cpu.traceOf m.word i m⟩

theorem step_course (cpu : Processor) (m : Machine) : cpu.Course m (cpu.step m) := by
  unfold step
  cases hf : m.isFinished with
  | true => exact .finished hf
  | false =>
    cases hb : m.fetchInBounds with
    | false =>
      simp only [fetch, hb]
      exact .outside hf hb
    | true =>
      simp only [fetch, hb, if_true, Bool.false_eq_true, if_false]
      cases hi : Instruction.ofWord? m.word with
      | none =>
        rw [execute_unknown _ hi]
        exact .unknown hf hb hi
      | some i =>
        cases hn : cpu.numberFor i with
        | error e =>
          rw [execute_dry { cpu with opcode := m.word } hi hn]
          exact .dry hf hb hi hn
        | ok r =>
          obtain ⟨number, source⟩ := r
          cases he : (i.effect cpu.platform number m).failure with
          | some e =>
            rw [execute_stopped { cpu with opcode := m.word } hi hn he]
            exact .stopped hf hb hi hn he
          | none =>
            rw [execute_done { cpu with opcode := m.word } hi hn he]
            exact .done hf hb hi hn he

/-- A step takes one course only. -/
theorem Course.step_eq {cpu : Processor} {m : Machine} {run : Run (Option Bool)}
    (h : cpu.Course m run) : cpu.step m = run := by
  cases h with
  | finished hf => simp only [step, hf, if_true]
  | outside hf hb => simp only [step, fetch, hf, hb, Bool.false_eq_true, if_false]
  | unknown hf hb hi =>
    simp only [step, fetch, hf, hb, Bool.false_eq_true, if_false, if_true,
      execute_unknown { cpu with opcode := m.word } hi]
    rfl
  | dry hf hb hi hn =>
    simp only [step, fetch, hf, hb, Bool.false_eq_true, if_false, if_true,
      execute_dry { cpu with opcode := m.word } hi hn]
    rfl
  | stopped hf hb hi hn he =>
    simp only [step, fetch, hf, hb, Bool.false_eq_true, if_false, if_true,
      execute_stopped { cpu with opcode := m.word } hi hn he]
    rfl
  | done hf hb hi hn he =>
    simp only [step, fetch, hf, hb, Bool.false_eq_true, if_false, if_true,
      execute_done { cpu with opcode := m.word } hi hn he]
    rfl

/-- A step that runs passes over the word at the counter or executes its instruction. Then the
tone is decided, and the timers count down. -/
theorem step_ran {cpu : Processor} {m : Machine} {tone : Bool}
    (h : (cpu.step m).result = .ok (some tone)) :
    m.isFinished = false ∧ ∃ n : Machine, (cpu.step m).machine = n.countDown ∧
      tone = decide (0 < n.sound) ∧
        (m.instruction? = none ∧ n = m.advance ∨
          ∃ i number, m.instruction? = some i ∧ (i.effect cpu.platform number m).failure = none ∧
            n = (i.effect cpu.platform number m).machine) := by
  have hcourse := cpu.step_course m
  generalize cpu.step m = run at h hcourse ⊢
  cases hcourse with
  | finished | outside | dry | stopped => cases h
  | unknown hf hb hi =>
    cases h
    rw [← Machine.instruction?_of_inBounds hb] at hi
    exact ⟨hf, _, rfl, rfl, Or.inl ⟨hi, rfl⟩⟩
  | done hf hb hi hn he =>
    cases h
    rw [← Machine.instruction?_of_inBounds hb] at hi
    exact ⟨hf, _, rfl, rfl, Or.inr ⟨_, _, hi, he, rfl⟩⟩

theorem step_eq_of_finished (cpu : Processor) {m : Machine} (hf : m.isFinished = true) :
    cpu.step m = ⟨.ok none, cpu, m, []⟩ := (Course.finished hf).step_eq

/-- A processor remembers the word that it fetched last. -/
theorem step_opcode (cpu : Processor) (m : Machine) :
    (cpu.step m).processor.opcode = (m.fetched?.map Int.ofNat).getD cpu.opcode := by
  have hcourse := cpu.step_course m
  generalize cpu.step m = run at hcourse ⊢
  unfold Machine.fetched? Machine.word?
  cases hcourse with
  | finished hf => rw [hf]; rfl
  | outside hf hb => rw [hf, hb]; rfl
  | unknown hf hb | dry hf hb | stopped hf hb | done hf hb => rw [hf, hb]; rfl

end Processor

namespace Session

/-- The session after its machine has taken a step, with all else as it was. -/
def ran (s : Session) : Session :=
  { s with
    processor := (s.processor.step s.machine).processor
    machine := (s.processor.step s.machine).machine }

/-- What a step can do to a session, and what it leaves behind. -/
inductive Course (s : Session) : Reply Bool → Prop where
  /-- The session is not running. -/
  | idle (hs : s.isRunning = false) : Course s ⟨.ok false, s, []⟩
  /-- A fault of the guest switches the session off. -/
  | halted (hs : s.isRunning = true) {f : Fault}
    (hr : (s.processor.step s.machine).result = .error (.fault f)) :
    Course s ⟨.ok false, { s.ran.powerOff with fault := some f },
      (s.processor.step s.machine).log ++
        [.halted f (Snapshot.ofMachine s.ran.machine s.ran.processor.opcode "???")]⟩
  /-- A misuse is handed back. -/
  | refused (hs : s.isRunning = true) {e : Misuse}
    (hr : (s.processor.step s.machine).result = .error (.misuse e)) :
    Course s ⟨.error (.misuse e), s.ran, (s.processor.step s.machine).log⟩
  /-- The program has finished, and the session is switched off. -/
  | finished (hs : s.isRunning = true) (hr : (s.processor.step s.machine).result = .ok none) :
    Course s ⟨.ok false, s.ran.powerOff,
      (s.processor.step s.machine).log ++ [.finished s.steps]⟩
  /-- The step is counted. -/
  | ticked (hs : s.isRunning = true) {tone : Bool}
    (hr : (s.processor.step s.machine).result = .ok (some tone)) :
    Course s ⟨.ok true, { s.ran with tone := tone, steps := s.steps + 1 },
      (s.processor.step s.machine).log⟩

theorem step_course (s : Session) : s.Course s.step := by
  unfold step
  cases hs : s.isRunning with
  | false => exact .idle hs
  | true =>
    rw [if_pos rfl]
    dsimp only
    cases hr : (s.processor.step s.machine).result with
    | error e =>
      cases e with
      | fault f => exact .halted hs hr
      | misuse e => exact .refused hs hr
    | ok outcome =>
      cases outcome with
      | none => exact .finished hs hr
      | some tone => exact .ticked hs hr

theorem Course.step_eq {s : Session} {r : Reply Bool} (h : s.Course r) : s.step = r := by
  cases h with
  | idle hs => simp only [step, hs, Bool.false_eq_true, if_false]
  | halted hs hr | refused hs hr | finished hs hr | ticked hs hr =>
    simp only [step, hs, hr, if_true]
    rfl

end Session

end Chip8
