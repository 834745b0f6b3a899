/-
  Words that are executed one after another, not because they lie in memory but because a host asks
  for them, and that may do something to the machine before each. Where every word is executed and
  leaves the processor as it was, the words go through (`Completes`): a word more goes through at
  the front, and two lists that go through do so in a row.
-/
import Chip8.Proofs.Atomicity
namespace Chip8

/-- A word to execute, and what is done to the machine before. -/
structure Job where
  word : Nat
  prepare : Machine → Machine := id

namespace Processor

/-- Executes words in turn, up to one that is no instruction or is stopped. The result says whether
all of them were executed. -/
def executeAll : Processor → List Job → Machine → Run Bool
  | cpu, [], m => ⟨.ok true, cpu, m, []⟩
  | cpu, job :: jobs, m =>
    let run := cpu.execute job.word (job.prepare m)
    match run.result with
    | .ok true =>
      let rest := run.processor.executeAll jobs run.machine
      { rest with log := run.log ++ rest.log }
    | .ok false | .error _ => run

/-- The words are all executed, and leave the processor as it was. -/
inductive Completes (cpu : Processor) : List Job → Machine → Machine → Prop where
  | nil (m : Machine) : Completes cpu [] m m
  | cons {job : Job} {jobs : List Job} {m n after : Machine} {log : List Record}
    (first : cpu.execute job.word (job.prepare m) = ⟨.ok true, cpu, n, log⟩)
    (rest : Completes cpu jobs n after) : Completes cpu (job :: jobs) m after

variable {cpu : Processor} {jobs others : List Job} {m n after : Machine}

theorem Completes.append (h : cpu.Completes jobs m n) (h' : cpu.Completes others n after) :
    cpu.Completes (jobs ++ others) m after := by
  induction h with
  | nil => exact h'
  | cons first _ ih => exact .cons first (ih h')

theorem Completes.executeAll (h : cpu.Completes jobs m after) :
    (cpu.executeAll jobs m).result = .ok true ∧ (cpu.executeAll jobs m).processor = cpu ∧
      (cpu.executeAll jobs m).machine = after := by
  induction h with
  | nil => exact ⟨rfl, rfl, rfl⟩
  | cons first _ ih =>
    rw [Processor.executeAll, first]
    exact ih

/-- An instruction that takes no random number and that nothing stops goes through. -/
theorem Completes.instruction {job : Job} {i : Instruction} (hword : job.word = i.word)
    (hrandom : i.isRandom = false) (he : i.effect cpu.platform 0 (job.prepare m) = ⟨n, none⟩)
    (h : cpu.Completes jobs n after) : cpu.Completes (job :: jobs) m after := by
  have hdone := execute_word cpu hrandom (congrArg Outcome.failure he)
  rw [he, ← hword] at hdone
  exact .cons hdone h

end Processor

end Chip8
