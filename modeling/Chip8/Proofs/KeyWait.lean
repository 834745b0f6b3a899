/-
  Waiting for a key. While no key is held, the instruction that waits is fetched again by every
  step and does nothing, so each step only counts the timers down (`step_waits`), and any number of
  steps leaves the machine as it was but for its timers (`after_waits`). The first step that finds
  keys held takes the lowest of them, once, and goes on to the next instruction (`step_takesKey`).
-/
import Chip8.Proofs.Atomicity
import Chip8.Proofs.Computer
import Chip8.Proofs.History
import Mathlib.Data.Finset.Max
import Mathlib.Order.Fin.Basic
namespace Chip8

/-- The keypad on which some keys are held. -/
def keypadOf (held : Finset Key) : Array Bool := Array.ofFn fun key => decide (key ∈ held)

namespace Machine

variable {m : Machine}

/-! ## Looking for a key -/

/-- The keys have no say in what is fetched. -/
theorem fetched?_withKeypad (m : Machine) (keypad : Array Bool) :
    { m with keypad := keypad }.fetched? = m.fetched? := rfl

theorem lowestKey?_of_none (hnone : true ∉ m.keypad) : m.lowestKey? = none := by
  have hsome := mt isSome_lowestKey?_iff.mp hnone
  rwa [Bool.not_eq_true, Option.isSome_eq_false_iff, Option.isNone_iff_eq_none] at hsome

theorem lowestKey?_keypadOf {held : Finset Key} (hkeypad : m.keypad = keypadOf held)
    (hheld : held.Nonempty) : m.lowestKey? = some (held.min' hheld).val := by
  have hlist : m.keypad.toList = List.ofFn fun key : Key => decide (key ∈ held) := by
    rw [hkeypad, keypadOf, Array.toList_ofFn]
  rw [lowestKey?, hlist, List.findIdx?_eq_some_iff_getElem]
  refine ⟨by rw [List.length_ofFn]; exact (held.min' hheld).isLt, ?_, ?_⟩
  · rw [List.getElem_ofFn]
    exact decide_eq_true (held.min'_mem hheld)
  · intro j hj hmem
    rw [List.getElem_ofFn] at hmem
    exact absurd hj (Nat.not_lt.mpr (held.min'_le _ (of_decide_eq_true hmem)))

theorem takeKey_of_none (hnone : true ∉ m.keypad) (x : Register) : m.takeKey x = ⟨m, none⟩ := by
  rw [takeKey, lowestKey?_of_none hnone]

/-- Of the keys that are held the lowest is taken. -/
theorem takeKey_keypadOf {held : Finset Key} (hkeypad : m.keypad = keypadOf held)
    (hheld : held.Nonempty) (x : Register) :
    m.takeKey x = ⟨(m.setReg x (UInt8.ofNat (held.min' hheld).val)).advance, none⟩ := by
  have hlt : (held.min' hheld).val < 16 := (held.min' hheld).isLt
  rw [takeKey, lowestKey?_keypadOf hkeypad hheld]
  dsimp only
  rw [byte?_eq_some (by omega) (by omega), Int.toNat_natCast]

/-! ## Counting down -/

/-- The machine with its timers counted down some times. -/
def countDownBy (m : Machine) (n : Nat) : Machine :=
  { m with delay := max 0 (m.delay - n), sound := max 0 (m.sound - n) }

theorem countDownBy_zero (hdelay : 0 ≤ m.delay) (hsound : 0 ≤ m.sound) :
    m.countDownBy 0 = m := by
  have hd : max 0 (m.delay - (0 : Nat)) = m.delay := by omega
  have hs : max 0 (m.sound - (0 : Nat)) = m.sound := by omega
  rw [countDownBy, hd, hs]

theorem countDown_countDownBy (m : Machine) (n : Nat) :
    (m.countDownBy n).countDown = m.countDownBy (n + 1) := by
  have hcount : ∀ t : Int, (if 0 < max 0 (t - n) then max 0 (t - n) - 1 else max 0 (t - n)) =
      max 0 (t - (n + 1 : Nat)) := by
    intro t
    split <;> omega
  have hdelay : (m.countDownBy n).countDown.delay = (m.countDownBy (n + 1)).delay :=
    hcount m.delay
  have hsound : (m.countDownBy n).countDown.sound = (m.countDownBy (n + 1)).sound :=
    hcount m.sound
  calc (m.countDownBy n).countDown
      = { m with
          delay := (m.countDownBy n).countDown.delay
          sound := (m.countDownBy n).countDown.sound } := rfl
    _ = m.countDownBy (n + 1) := by rw [hdelay, hsound]; rfl

end Machine

/-! ## One step -/

namespace Processor

/-- A step fetches an instruction that takes no random number and that nothing stops, and runs it.
Then the timers count down. -/
theorem step_of_fetched (cpu : Processor) {m : Machine} {i : Instruction}
    (hi : m.fetched? = some i.word) (hrandom : i.isRandom = false)
    (he : (i.effect cpu.platform 0 m).failure = none) :
    cpu.step m = ⟨.ok (some (decide (0 < (i.effect cpu.platform 0 m).machine.sound))),
      { cpu with opcode := m.word }, (i.effect cpu.platform 0 m).machine.countDown,
      cpu.traceOf m.word i m⟩ := by
  obtain ⟨hf, hinstruction⟩ := Machine.fetched?_eq_some_iff.mp hi
  have hb : m.fetchInBounds = true := by
    by_contra hout
    rw [Machine.instruction?, Machine.word?, if_neg hout] at hinstruction
    cases hinstruction
  rw [Machine.instruction?_of_inBounds hb] at hinstruction
  exact (Course.done hf hb hinstruction (numberFor_of_not_random hrandom) he).step_eq

section Wait

variable (cpu : Processor) {m : Machine} {x : Register}
  (hwait : m.fetched? = some (wordOfByte 0xF x 0x0A)) (n : Nat)

include hwait

/-- However far the timers have counted down, a step looks for a key, and they count down. -/
theorem step_looks {after : Machine} (hsound : after.sound = m.sound)
    (htake : (m.countDownBy n).takeKey x = ⟨after.countDownBy n, none⟩) :
    cpu.step (m.countDownBy n) = ⟨.ok (some (decide ((n : Int) < m.sound))),
      { cpu with opcode := m.word }, after.countDownBy (n + 1),
      cpu.traceOf m.word (.waitKey x) (m.countDownBy n)⟩ := by
  have heffect : (Instruction.waitKey x).effect cpu.platform 0 (m.countDownBy n) =
      ⟨after.countDownBy n, none⟩ := htake
  -- neither the counter nor the word there is among the timers
  have hfetched : (m.countDownBy n).fetched? = some (Instruction.waitKey x).word := hwait
  have htone : 0 < (after.countDownBy n).sound ↔ (n : Int) < m.sound := by
    simp only [Machine.countDownBy, hsound]
    omega
  have hstep := step_of_fetched cpu hfetched rfl (by rw [heffect])
  rw [heffect, Machine.countDown_countDownBy, decide_eq_decide.mpr htone] at hstep
  exact hstep

/-- With no key held, only the timers count down. -/
theorem step_waits (hnone : true ∉ m.keypad) :
    cpu.step (m.countDownBy n) = ⟨.ok (some (decide ((n : Int) < m.sound))),
      { cpu with opcode := m.word }, m.countDownBy (n + 1),
      cpu.traceOf m.word (.waitKey x) (m.countDownBy n)⟩ :=
  step_looks cpu hwait n rfl (Machine.takeKey_of_none (m := m.countDownBy n) hnone x)

/-- With some keys held, the lowest of them is put into Vx, and the step goes on. -/
theorem step_takesKey {held : Finset Key} (hkeypad : m.keypad = keypadOf held)
    (hheld : held.Nonempty) :
    cpu.step (m.countDownBy n) = ⟨.ok (some (decide ((n : Int) < m.sound))),
      { cpu with opcode := m.word },
      (m.setReg x (UInt8.ofNat (held.min' hheld).val)).advance.countDownBy (n + 1),
      cpu.traceOf m.word (.waitKey x) (m.countDownBy n)⟩ :=
  step_looks cpu hwait n rfl
    (Machine.takeKey_keypadOf (m := m.countDownBy n) hkeypad hheld x)

end Wait

end Processor

/-! ## Runs -/

namespace Computer

/-- The host leaves the keys as they are. -/
def untouched : Nat → Array Bool → Array Bool := fun _ => id

/-- The computer after the host has set the keypad. -/
def holding (c : Computer) (held : Finset Key) : Computer := c.touch fun _ => keypadOf held

section Run

variable {c : Computer} {x : Register} (hwait : c.machine.fetched? = some (wordOfByte 0xF x 0x0A))
  (hnone : true ∉ c.machine.keypad) (hdelay : 0 ≤ c.machine.delay) (hsound : 0 ≤ c.machine.sound)

include hwait hnone hdelay hsound

theorem after_waits (n : Nat) :
    (c.after untouched n).machine = c.machine.countDownBy n ∧
      (c.after untouched n).processor.source = c.processor.source := by
  induction n with
  | zero => exact ⟨(Machine.countDownBy_zero hdelay hsound).symm, rfl⟩
  | succ n ih =>
    obtain ⟨hmachine, hsource⟩ := ih
    have hstep := (c.after untouched n).processor.step_waits hwait n hnone
    rw [← hmachine] at hstep
    have hmachine' := congrArg Run.machine hstep
    have hprocessor := congrArg Run.processor hstep
    refine ⟨hmachine', ?_⟩
    exact (congrArg Processor.source hprocessor).trans hsource

end Run

/-- Waiting for a key changes nothing, and then takes the lowest key once. On a well-formed machine
whose counter is at an instruction that waits, inside the program, let no key be held. Then any
number of steps succeeds, each with the tone as the sound timer has it, and leaves the machine as it
was but for its timers, which have lost one in each step. If the host then holds some keys, the next
step puts the lowest of them into Vx and goes on by two, and nothing else changes but the timers,
which lose one more. No random number is taken. -/
theorem key_wait_spins {c : Computer} {x : Register} (hm : c.machine.WellFormed)
    (hinside : c.machine.counter < c.machine.programEnd)
    (hword : c.machine.word? = some (wordOfByte 0xF x 0x0A)) (hnone : true ∉ c.machine.keypad)
    (n : Nat) :
    (∀ k < n, (c.ready untouched k).step.result =
      .ok (some (decide ((k : Int) < c.machine.sound)))) ∧
    (c.after untouched n).machine =
      { c.machine with
        delay := max 0 (c.machine.delay - n)
        sound := max 0 (c.machine.sound - n) } ∧
    (c.after untouched n).processor.source = c.processor.source ∧
    ∀ (held : Finset Key) (hheld : held.Nonempty),
      ((c.after untouched n).holding held).step.result =
        .ok (some (decide ((n : Int) < c.machine.sound))) ∧
      (((c.after untouched n).holding held).step.machine.reg x).toNat =
        (held.min' hheld).val ∧
      ((c.after untouched n).holding held).step.machine =
        { c.machine with
          keypad := keypadOf held
          registers := c.machine.registers.set x (UInt8.ofNat (held.min' hheld).val)
          counter := c.machine.counter + 2
          delay := max 0 (c.machine.delay - (n + 1 : Nat))
          sound := max 0 (c.machine.sound - (n + 1 : Nat)) } ∧
      ((c.after untouched n).holding held).step.processor.source = c.processor.source := by
  have hwait : c.machine.fetched? = some (wordOfByte 0xF x 0x0A) := by
    have hf : ¬ c.machine.isFinished = true := by
      rw [Machine.isFinished_iff]
      omega
    rw [Machine.fetched?, if_neg hf, hword]
  have hafter := after_waits hwait hnone hm.delay.1 hm.sound.1
  refine ⟨?_, (hafter n).1, (hafter n).2, ?_⟩
  · intro k _
    have hstep := (c.after untouched k).processor.step_waits hwait k hnone
    rw [← (hafter k).1] at hstep
    exact congrArg Run.result hstep
  · intro held hheld
    have hfetched := (c.machine.fetched?_withKeypad (keypadOf held)).trans hwait
    have hstep := (c.after untouched n).processor.step_takesKey hfetched n rfl hheld
    have hready : ((c.after untouched n).holding held).step =
        (c.after untouched n).processor.step
          (Machine.countDownBy { c.machine with keypad := keypadOf held } n) := by
      rw [holding, step, touch, (hafter n).1]
      rfl
    rw [hready, hstep]
    refine ⟨rfl, ?_, rfl, (hafter n).2⟩
    have hlt : (held.min' hheld).val < 16 := (held.min' hheld).isLt
    have hreg := Machine.reg_setReg_self c.machine x (UInt8.ofNat (held.min' hheld).val)
    have hvalue : (UInt8.ofNat (held.min' hheld).val).toNat = (held.min' hheld).val :=
      UInt8.toNat_ofNat_of_lt' (by show _ < 256; omega)
    exact (congrArg UInt8.toNat hreg).trans hvalue

/-- A computer that waits for a key and puts it into V3, with 9 and 2 left of the timers. -/
def waitingComputer : Computer where
  processor := modernProcessor
  machine := { Machine.holding modernProcessor.platform [0xF3, 0x0A, 0x00, 0xE0] with
    delay := 9
    sound := 2 }

attribute [local instance] Capacity.least in
theorem key_wait_spins_lowest :
    waitingComputer.machine.word? = some (wordOfByte 0xF 3 0x0A) ∧
      (waitingComputer.after untouched 3).machine.delay = 6 ∧
      (waitingComputer.after untouched 3).machine.sound = 0 ∧
      (((waitingComputer.after untouched 3).holding {5, 12}).step.machine.reg 3).toNat = 5 ∧
      ((waitingComputer.after untouched 3).holding {5, 12}).step.machine.counter = 0x202 := by
  have hword : waitingComputer.machine.word? = some (wordOfByte 0xF 3 0x0A) := by decide +kernel
  have hm : waitingComputer.machine.WellFormed :=
    { (Machine.holding_wellFormedOn (p := modernProcessor.platform)
        (Platform.sized_of_geometry rfl) (by decide)).toWellFormed with
      delay := by decide
      sound := by decide }
  have hnone : true ∉ waitingComputer.machine.keypad := by
    intro hmem
    cases Array.eq_of_mem_replicate hmem
  obtain ⟨-, hwaited, -, htaken⟩ := key_wait_spins hm (by decide) hword hnone 3
  obtain ⟨-, hreg, hmachine, -⟩ := htaken {5, 12} (by decide)
  refine ⟨hword, ?_, ?_, ?_, ?_⟩
  · rw [hwaited]
    rfl
  · rw [hwaited]
    rfl
  · rw [hreg]
    rfl
  · rw [hmachine]
    rfl

end Computer

end Chip8
