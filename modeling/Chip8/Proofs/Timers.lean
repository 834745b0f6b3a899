/-
  The timers over whole runs. A timer counts down by one in every step and stops at zero, and only
  the instruction that sets it does anything else to it (`step_timer`). So over any steps of which
  none sets it, it loses as many as there are steps (`timer_after`), and the tone sounds in just
  those of them that find something left of the sound timer.
-/
import Chip8.Proofs.Computer
import Chip8.Proofs.History
namespace Chip8

/-- The two timers. -/
inductive Timer where
  | delay
  | sound

/-- The instruction that sets a timer to Vx. -/
def Timer.setter (x : Register) : Timer → Instruction
  | .delay => .setDelay x
  | .sound => .setSound x

/-- What an instruction leaves of a timer. -/
def Instruction.timerAfter (m : Machine) (i : Instruction) : Timer → Int
  | .delay => i.delayAfter m
  | .sound => i.soundAfter m

namespace Machine

/-- What is left of a timer. -/
def timer (m : Machine) : Timer → Int
  | .delay => m.delay
  | .sound => m.sound

/-- What the word at the counter leaves of a timer, before the timers count down. -/
def timerSet (m : Machine) (t : Timer) : Int :=
  match m.instruction? with
  | some i => i.timerAfter m t
  | none => m.timer t

theorem timerSet_setter {m : Machine} {t : Timer} {x : Register}
    (h : m.fetched? = some (t.setter x).word) : m.timerSet t = (m.reg x).toNat := by
  rw [timerSet, (fetched?_eq_some_iff.mp h).2]
  cases t <;> rfl

theorem timerSet_of_ne {m : Machine} {t : Timer} (hf : m.isFinished = false)
    (h : ∀ x, m.fetched? ≠ some (t.setter x).word) : m.timerSet t = m.timer t := by
  have hne : ∀ x, m.instruction? ≠ some (t.setter x) :=
    fun x hi => h x (fetched?_eq_some_iff.mpr ⟨hf, hi⟩)
  unfold timerSet
  cases hi : m.instruction? with
  | none => rfl
  | some i =>
    rw [hi] at hne
    cases t with
    | delay =>
      cases i with
      | setDelay x => exact absurd rfl (hne x)
      | _ => rfl
    | sound =>
      cases i with
      | setSound x => exact absurd rfl (hne x)
      | _ => rfl

theorem countDown_timer (m : Machine) (t : Timer) :
    m.countDown.timer t = if 0 < m.timer t then m.timer t - 1 else m.timer t := by
  cases t <;> rfl

end Machine

/-! ## One step -/

/-- Reading the delay timer puts what is left of it into Vx. -/
theorem Instruction.effect_readDelay {p : Platform} {number : Int} {x : Register} {m : Machine}
    (h : ((readDelay x).effect p number m).failure = none) :
    ((((readDelay x).effect p number m).machine.reg x).toNat : Int) = m.delay := by
  simp only [effect] at h ⊢
  cases hb : byte? m.delay with
  | none =>
    rw [hb] at h
    cases h
  | some b =>
    have hreg : ((m.setReg x b).advance).reg x = b := Vector.getElem_set_self x.isLt
    rw [← Machine.toNat_of_byte? hb]
    exact congrArg (fun b => (b.toNat : Int)) hreg

namespace Processor

variable {cpu : Processor} {m : Machine} {tone : Bool}

theorem step_timer (h : (cpu.step m).result = .ok (some tone)) :
    tone = decide (0 < m.timerSet .sound) ∧
      ∀ t, (cpu.step m).machine.timer t =
        if 0 < m.timerSet t then m.timerSet t - 1 else m.timerSet t := by
  obtain ⟨-, n, hmachine, htone, hn⟩ := step_ran h
  have hset : ∀ t, n.timer t = m.timerSet t := by
    intro t
    rcases hn with ⟨hi, rfl⟩ | ⟨i, number, hi, -, rfl⟩
    · rw [Machine.timerSet, hi]
      cases t <;> rfl
    · rw [Machine.timerSet, hi]
      have hfoot := Instruction.effect_footprint cpu.platform number i m
      cases t with
      | delay => exact hfoot.delay
      | sound => exact hfoot.sound
  refine ⟨by rw [htone, ← hset]; rfl, fun t => ?_⟩
  rw [hmachine, Machine.countDown_timer, hset]

theorem step_readDelay {x : Register} (hx : m.fetched? = some (wordOfByte 0xF x 0x07))
    (h : (cpu.step m).result = .ok (some tone)) :
    (((cpu.step m).machine.reg x).toNat : Int) = m.delay := by
  have hread : m.instruction? = some (.readDelay x) := (Machine.fetched?_eq_some_iff.mp hx).2
  obtain ⟨-, n, hmachine, -, ⟨hi, -⟩ | ⟨i, number, hi, he, rfl⟩⟩ := step_ran h
  · rw [hread] at hi
    cases hi
  · rw [hread] at hi
    cases hi
    rw [hmachine]
    exact Instruction.effect_readDelay he

end Processor

/-! ## Runs -/

namespace Computer

/-- A step of a run finds a word to execute, and is not stopped. -/
def Runs (c : Computer) (keys : Nat → Array Bool → Array Bool) (k : Nat) : Prop :=
  ∃ tone, (c.ready keys k).step.result = .ok (some tone)

instance (c : Computer) (keys : Nat → Array Bool → Array Bool) (k : Nat) :
    Decidable (c.Runs keys k) := inferInstanceAs (Decidable (∃ _ : Bool, _))

section Run

variable {c : Computer} {keys : Nat → Array Bool → Array Bool} {t : Timer}

theorem timer_succ {k : Nat} (hrun : c.Runs keys k) :
    (c.after keys (k + 1)).machine.timer t =
      if 0 < (c.ready keys k).machine.timerSet t then (c.ready keys k).machine.timerSet t - 1
      else (c.ready keys k).machine.timerSet t := by
  obtain ⟨tone, h⟩ := hrun
  exact (Processor.step_timer h).2 t

/-- A step that does not set a timer counts down what was left of it; no key changes that. -/
theorem timerSet_kept {k : Nat} (hrun : c.Runs keys k)
    (hkeep : ∀ x, c.fetched? keys k ≠ some (t.setter x).word) :
    (c.ready keys k).machine.timerSet t = (c.after keys k).machine.timer t := by
  obtain ⟨tone, h⟩ := hrun
  refine (Machine.timerSet_of_ne (Processor.step_ran h).1 hkeep).trans ?_
  cases t <;> rfl

/-- Over steps that do not set it, a timer loses as many as there are, and stops at zero. -/
theorem timer_after {i n : Nat} (h0 : 0 ≤ (c.after keys i).machine.timer t)
    (hruns : ∀ j < n, c.Runs keys (i + j))
    (hkeep : ∀ j < n, ∀ x, c.fetched? keys (i + j) ≠ some (t.setter x).word) :
    (c.after keys (i + n)).machine.timer t = max 0 ((c.after keys i).machine.timer t - n) := by
  induction n with
  | zero =>
    rw [Nat.add_zero]
    omega
  | succ n ih =>
    have hbefore := ih (fun j hj => hruns j (by omega)) (fun j hj => hkeep j (by omega))
    have hkept := timerSet_kept (hruns n (by omega)) (hkeep n (by omega))
    rw [← Nat.add_assoc, timer_succ (hruns n (by omega)), hkept, hbefore]
    split <;> omega

section Set

variable {x : Register} (hset : c.fetched? keys 0 = some (t.setter x).word)

include hset

theorem timerSet_zero : (c.ready keys 0).machine.timerSet t = (c.machine.reg x).toNat :=
  Machine.timerSet_setter hset

/-- A timer that the first step of a run sets loses as many as there are steps, that one too. -/
theorem timer_after_set {n : Nat} (hn : 1 ≤ n) (hruns : ∀ j < n, c.Runs keys j)
    (hkeep : ∀ j, 1 ≤ j → j < n → ∀ z, c.fetched? keys j ≠ some (t.setter z).word) :
    (c.after keys n).machine.timer t = max 0 (((c.machine.reg x).toNat : Int) - n) := by
  obtain ⟨n, rfl⟩ : ∃ rest, n = 1 + rest := ⟨n - 1, by omega⟩
  have hfirst : (c.after keys 1).machine.timer t = max 0 (((c.machine.reg x).toNat : Int) - 1) := by
    rw [timer_succ (hruns 0 (by omega)), timerSet_zero hset]
    split <;> omega
  rw [timer_after (by omega) (fun j hj => hruns (1 + j) (by omega))
    (fun j hj => hkeep (1 + j) (by omega) (by omega)), hfirst]
  omega

theorem timerSet_after_set {j : Nat} (hruns : ∀ i ≤ j, c.Runs keys i)
    (hkeep : ∀ i, 1 ≤ i → i ≤ j → ∀ z, c.fetched? keys i ≠ some (t.setter z).word) :
    (c.ready keys j).machine.timerSet t = max 0 (((c.machine.reg x).toNat : Int) - j) := by
  by_cases h0 : j = 0
  · subst h0
    rw [timerSet_zero hset]
    omega
  · rw [timerSet_kept (hruns j (by omega)) (hkeep j (by omega) (by omega))]
    exact timer_after_set hset (by omega) (fun i hi => hruns i (by omega))
      (fun i h1 hi => hkeep i h1 (by omega))

end Set

end Run

/-- The timers over a run. On a machine whose delay timer is not below zero, let the steps of a run
up to the step k all run, whatever they execute and whatever the host does with the keys. If none
of them sets the delay timer, it loses their number. If the first one sets it, the last one reads
it and none between sets it again, what is read has lost the number of the steps before the last.
If the first one sets the sound timer and no other one does, the tone sounds in as many of them as
were put into the timer, from the first on. -/
theorem timers_count_down {c : Computer} {keys : Nat → Array Bool → Array Bool} {k : Nat}
    (hdelay : 0 ≤ c.machine.delay) (hruns : ∀ j ≤ k, c.Runs keys j) :
    ((∀ j ≤ k, ∀ z, c.fetched? keys j ≠ some (wordOfByte 0xF z 0x15)) →
      (c.after keys (k + 1)).machine.delay = max 0 (c.machine.delay - (k + 1 : Nat))) ∧
    (∀ x y, 1 ≤ k → c.fetched? keys 0 = some (wordOfByte 0xF x 0x15) →
      (∀ j, 1 ≤ j → j < k → ∀ z, c.fetched? keys j ≠ some (wordOfByte 0xF z 0x15)) →
      c.fetched? keys k = some (wordOfByte 0xF y 0x07) →
        (((c.after keys (k + 1)).machine.reg y).toNat : Int) =
          max 0 (((c.machine.reg x).toNat : Int) - k)) ∧
    (∀ x, c.fetched? keys 0 = some (wordOfByte 0xF x 0x18) →
      (∀ j, 1 ≤ j → j ≤ k → ∀ z, c.fetched? keys j ≠ some (wordOfByte 0xF z 0x18)) →
        ∀ j ≤ k, (c.ready keys j).step.result =
          .ok (some (decide (j < min (c.machine.reg x).toNat (k + 1))))) := by
  refine ⟨fun hkeep => ?_, fun x y hk hset hkeep hread => ?_, fun x hset hkeep j hj => ?_⟩
  · have hafter := @timer_after c keys .delay 0 (k + 1) hdelay
      (fun j hj => by rw [Nat.zero_add]; exact hruns j (by omega))
      (fun j hj => by rw [Nat.zero_add]; exact hkeep j (by omega))
    rwa [Nat.zero_add] at hafter
  · obtain ⟨tone, h⟩ := hruns k (Nat.le_refl k)
    have hleft := @timer_after_set c keys .delay x hset k hk (fun j hj => hruns j (by omega)) hkeep
    exact (Processor.step_readDelay hread h).trans hleft
  · obtain ⟨tone, h⟩ := hruns j hj
    have hleft := @timerSet_after_set c keys .sound x hset j (fun i hi => hruns i (by omega))
      (fun i h1 hi => hkeep i h1 (by omega))
    have hsounds : 0 < max 0 (((c.machine.reg x).toNat : Int) - j) ↔
        j < min (c.machine.reg x).toNat (k + 1) := by omega
    rw [h, (Processor.step_timer h).1, hleft, decide_eq_decide.mpr hsounds]

/-- A program that sets the sound timer to V0, passes an unknown word and waits for a key. -/
def soundingProgram : List UInt8 := [0xF0, 0x18, 0x00, 0x00, 0xF3, 0x0A]

/-- A program that sets the delay timer to V0, passes an unknown word and reads the timer. -/
def readingProgram : List UInt8 := [0xF0, 0x15, 0x00, 0x00, 0xF2, 0x07]

/-- A computer with a program, with a byte in V0 and with 9 left of the delay timer. -/
def timedComputer (b : UInt8) (program : List UInt8) : Computer where
  processor := modernProcessor
  machine := { (Machine.holding modernProcessor.platform program).setReg
    Instruction.jumpRegister b with delay := 9 }

theorem timers_count_down_timed :
    ((timedComputer 2 soundingProgram).after (fun _ => id) 3).machine.delay = 6 ∧
      (∀ j ≤ 2, ((timedComputer 2 soundingProgram).ready (fun _ => id) j).step.result =
        .ok (some (decide (j < 2)))) ∧
      ((timedComputer 5 readingProgram).after (fun _ => id) 3).machine.reg 2 = 3 := by
  have hsounding : (∀ j ≤ 2, (timedComputer 2 soundingProgram).Runs (fun _ => id) j) ∧
      (timedComputer 2 soundingProgram).fetched? (fun _ => id) 0 = some (wordOfByte 0xF 0 0x18) ∧
      (∀ j ≤ 2, ∀ z, (timedComputer 2 soundingProgram).fetched? (fun _ => id) j ≠
        some (wordOfByte 0xF z 0x15)) ∧
      (∀ j ≤ 2, 1 ≤ j → ∀ z, (timedComputer 2 soundingProgram).fetched? (fun _ => id) j ≠
        some (wordOfByte 0xF z 0x18)) := by decide +kernel
  have hreading : (∀ j ≤ 2, (timedComputer 5 readingProgram).Runs (fun _ => id) j) ∧
      (timedComputer 5 readingProgram).fetched? (fun _ => id) 0 = some (wordOfByte 0xF 0 0x15) ∧
      (∀ j < 2, 1 ≤ j → ∀ z, (timedComputer 5 readingProgram).fetched? (fun _ => id) j ≠
        some (wordOfByte 0xF z 0x15)) ∧
      (timedComputer 5 readingProgram).fetched? (fun _ => id) 2 = some (wordOfByte 0xF 2 0x07) := by
    decide +kernel
  obtain ⟨hruns, hset, hnodelay, hnosound⟩ := hsounding
  obtain ⟨hdelay, -, htone⟩ := timers_count_down (by decide) hruns
  obtain ⟨hruns', hset', hnodelay', hread⟩ := hreading
  obtain ⟨-, hreads, -⟩ := timers_count_down (by decide) hruns'
  have hleft := hreads 0 2 (by decide) hset' (fun j h1 hj => hnodelay' j hj h1) hread
  exact ⟨hdelay hnodelay, htone 0 hset fun j h1 hj => hnosound j hj h1,
    UInt8.toNat_inj.mp (Int.ofNat.inj hleft)⟩

end Computer

end Chip8
