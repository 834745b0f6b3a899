/-
  The bits of the index register above an address are never seen. Memory is reached through the
  low twelve bits of I alone, I is moved by sums that keep sixteen bits, of which these twelve are
  the lowest, and nothing else is made of I. So two machines whose index registers differ by a
  multiple of the size of the memory do the same, step after step, and still differ by such a
  multiple (`index_bits_unseen`).
-/
import Chip8.Proofs.Computer
import Chip8.Proofs.History
import Chip8.Proofs.Lockstep
namespace Chip8

namespace Machine

/-- The machine with another value in the index register. -/
def withIndex (m : Machine) (index : Int) : Machine := { m with index := index }

/-! ## Memory through the index register -/

section Reach

variable {m : Machine} {index : Int} (h : 4096 ∣ index - m.index)

include h

theorem byteAt_withIndex (k : Int) :
    (m.withIndex index).byteAt (index + k) = m.byteAt (m.index + k) :=
  byteAt_congr rfl (by omega)

theorem spritePoints_withIndex (x y : Int) (rows : Nat) :
    (m.withIndex index).spritePoints x y rows = m.spritePoints x y rows := by
  have hrow : ∀ dy : Nat, (m.withIndex index).byteAt ((m.withIndex index).index + dy) =
      m.byteAt (m.index + dy) := fun dy => byteAt_withIndex h dy
  simp only [spritePoints, hrow]

theorem storeDecimal_withIndex (b : UInt8) :
    (m.withIndex index).storeDecimal b = (m.storeDecimal b).withIndex index := by
  simp only [storeDecimal, setByteAt, withIndex, Address.ofInt_congr h, Address.ofInt_add_congr h]

theorem storeBlock_withIndex (count : Nat) :
    (m.withIndex index).storeBlock count = (m.storeBlock count).withIndex index := by
  simp only [storeBlock_eq, withIndex, Address.ofInt_add_congr h]

theorem loadBlock_withIndex (count : Nat) :
    (m.withIndex index).loadBlock count = (m.loadBlock count).withIndex index := by
  have hbyte : ∀ k : Nat, (m.withIndex index).byteAt ((m.withIndex index).index + k) =
      m.byteAt (m.index + k) := fun k => byteAt_withIndex h k
  simp only [loadBlock, hbyte]
  rfl

end Reach

end Machine

namespace Instruction

open Machine

/-! ## One instruction -/

/-- Sums that keep sixteen bits keep the difference a multiple of the size of the memory. -/
theorem indexAfter_withIndex (p : Platform) {m : Machine} {index : Int}
    (h : 4096 ∣ index - m.index) (i : Instruction) :
    4096 ∣ i.indexAfter p (m.withIndex index) - i.indexAfter p m := by
  cases i with
  | addIndex x =>
    have hreg : (m.withIndex index).reg x = m.reg x := rfl
    simp only [indexAfter, hreg]
    simp only [withIndex]
    omega
  | storeRegisters x | loadRegisters x =>
    simp only [indexAfter, moveIndex_eq]
    simp only [withIndex]
    split <;> omega
  | setIndex target | pointGlyph x =>
    refine ⟨0, ?_⟩
    exact Int.sub_self _
  | _ => exact h

/-- An instruction does the same but for what it leaves in the index register. -/
theorem effect_withIndex (p : Platform) (number : Int) (i : Instruction) {m : Machine}
    {index : Int} (h : 4096 ∣ index - m.index) :
    i.effect p number (m.withIndex index) =
      ⟨(i.effect p number m).machine.withIndex (i.indexAfter p (m.withIndex index)),
        (i.effect p number m).failure⟩ := by
  cases i with
  | clear =>
    have hscreen : (m.withIndex index).screen = m.screen := rfl
    simp only [effect, hscreen]
    cases m.screen.clear <;> rfl
  | ret =>
    have hstack : (m.withIndex index).stack = m.stack := rfl
    simp only [effect, hstack]
    cases m.stack.pop <;> rfl
  | call target =>
    have hpush : (m.withIndex index).stack.push (m.withIndex index).counter =
      m.stack.push m.counter := rfl
    simp only [effect, hpush]
    cases m.stack.push m.counter <;> rfl
  | skipIfByte | skipUnlessByte | skipIfSame | skipUnlessSame =>
    simp only [effect, skipIf_eq]
    rfl
  | skipIfHeld x | skipUnlessHeld x =>
    have hheld : (m.withIndex index).keyHeld x = m.keyHeld x := rfl
    simp only [effect, skipOnKey, skipIf_eq, hheld]
    cases m.keyHeld x <;> rfl
  | orWith | andWith | xorWith =>
    simp only [effect, logic_eq]
    rfl
  | draw x y rows =>
    have hscreen : (m.withIndex index).screen = m.screen := rfl
    have hreg : (m.withIndex index).reg = m.reg := rfl
    simp only [effect, drawSprite, hscreen, hreg, spritePoints_withIndex h]
    split
    · rfl
    · cases (m.screen.draw 0 _).failure <;> rfl
  | readDelay x =>
    have hdelay : (m.withIndex index).delay = m.delay := rfl
    simp only [effect, hdelay]
    cases byte? m.delay <;> rfl
  | waitKey x =>
    have hkey : (m.withIndex index).lowestKey? = m.lowestKey? := rfl
    simp only [effect, takeKey, hkey]
    cases m.lowestKey? with
    | none => rfl
    | some key =>
      dsimp only
      cases byte? key <;> rfl
  | storeDigits x =>
    have hreg : (m.withIndex index).reg = m.reg := rfl
    simp only [effect, hreg, storeDecimal_withIndex h]
    rfl
  | storeRegisters x =>
    simp only [effect, storeBlock_withIndex h, moveIndex_eq, indexAfter]
    rfl
  | loadRegisters x =>
    obtain ⟨registers, hload⟩ := m.loadBlock_eq (x.val + 1)
    simp only [effect, loadBlock_withIndex h, hload, moveIndex_eq, indexAfter]
    rfl
  | _ => rfl

end Instruction

/-! ## One step -/

/-- The machines differ at most in the index register, and there by a multiple of the size of the
memory. -/
structure Machine.SameBelow (m n : Machine) : Prop where
  machine : n = m.withIndex n.index
  index : 4096 ∣ n.index - m.index

theorem Machine.SameBelow.countDown {m n : Machine} (h : m.SameBelow n) :
    m.countDown.SameBelow n.countDown :=
  ⟨congrArg Machine.countDown h.machine, h.index⟩

theorem Instruction.effect_sameBelow (p : Platform) (number : Int) (i : Instruction)
    {m n : Machine} (h : m.SameBelow n) :
    (i.effect p number n).failure = (i.effect p number m).failure ∧
      (i.effect p number m).machine.SameBelow (i.effect p number n).machine := by
  have hm := (effect_footprint p number i m).index
  have hn := (effect_footprint p number i n).index
  have heffect := effect_withIndex p number i h.index
  rw [← h.machine] at heffect
  refine ⟨by rw [heffect], ?_, ?_⟩
  · rw [hn, heffect]
  · rw [hn, hm, h.machine]
    exact indexAfter_withIndex p h.index i

namespace Processor

/-- What a processor tells plays no part in the numbers that it is given. -/
theorem numberFor_of_ahead {cpu other : Processor}
    (hahead : ∀ k, other.source.ahead k = cpu.source.ahead k) {i : Instruction} {number : Int}
    {source : Source} (hn : cpu.numberFor i = .ok (number, source)) :
    ∃ t, other.numberFor i = .ok (number, t) ∧ ∀ k, t.ahead k = source.ahead k := by
  have halike : cpu.Alike { other with tracing := cpu.tracing } := ⟨rfl, hahead⟩
  exact halike.numberFor_ok hn

theorem numberFor_error_of_ahead {cpu other : Processor}
    (hahead : ∀ k, other.source.ahead k = cpu.source.ahead k) {i : Instruction} {e : Failure}
    (hn : cpu.numberFor i = .error e) : other.numberFor i = .error e := by
  have halike : cpu.Alike { other with tracing := cpu.tracing } := ⟨rfl, hahead⟩
  exact halike.numberFor_error hn

/-- Processors of one platform that are given the same random numbers from now on do the same with
such machines, and have the same numbers to come. -/
theorem step_sameBelow {cpu other : Processor} (hplatform : other.platform = cpu.platform)
    (hahead : ∀ k, other.source.ahead k = cpu.source.ahead k) {m n : Machine}
    (h : m.SameBelow n) :
    (other.step n).result = (cpu.step m).result ∧
      (∀ k, (other.step n).processor.source.ahead k = (cpu.step m).processor.source.ahead k) ∧
      (cpu.step m).machine.SameBelow (other.step n).machine := by
  have hfinished : n.isFinished = m.isFinished := by rw [h.machine]; rfl
  have hbounds : n.fetchInBounds = m.fetchInBounds := by rw [h.machine]; rfl
  have hword : n.word = m.word := by rw [h.machine]; rfl
  have hcounter : n.counter = m.counter := by rw [h.machine]; rfl
  have hsound : n.sound = m.sound := by rw [h.machine]; rfl
  have hcourse := cpu.step_course m
  generalize cpu.step m = run at hcourse ⊢
  cases hcourse with
  | finished hf =>
    rw [(Course.finished (hfinished.trans hf) : other.Course n _).step_eq]
    exact ⟨rfl, hahead, h⟩
  | outside hf hb =>
    rw [(Course.outside (hfinished.trans hf) (hbounds.trans hb) : other.Course n _).step_eq,
      hcounter]
    exact ⟨rfl, hahead, h⟩
  | unknown hf hb hi =>
    rw [← hword] at hi
    rw [(Course.unknown (hfinished.trans hf) (hbounds.trans hb) hi : other.Course n _).step_eq,
      hsound]
    refine ⟨rfl, hahead, Machine.SameBelow.countDown ⟨?_, h.index⟩⟩
    exact congrArg Machine.advance h.machine
  | dry hf hb hi hn =>
    rw [← hword] at hi
    have hn' := numberFor_error_of_ahead hahead hn
    rw [(Course.dry (hfinished.trans hf) (hbounds.trans hb) hi hn' : other.Course n _).step_eq]
    exact ⟨rfl, hahead, h⟩
  | @stopped hf hb i hi number source hn e he =>
    rw [← hword] at hi
    obtain ⟨t, hn', hnext⟩ := numberFor_of_ahead hahead hn
    obtain ⟨hfailure, hmachine⟩ := Instruction.effect_sameBelow cpu.platform number i h
    have he' : (i.effect other.platform number n).failure = some e := by
      rw [hplatform, hfailure, he]
    rw [(Course.stopped (hfinished.trans hf) (hbounds.trans hb) hi hn' he' :
      other.Course n _).step_eq, hplatform]
    exact ⟨rfl, hnext, hmachine⟩
  | @done hf hb i hi number source hn he =>
    rw [← hword] at hi
    obtain ⟨t, hn', hnext⟩ := numberFor_of_ahead hahead hn
    obtain ⟨hfailure, hmachine⟩ := Instruction.effect_sameBelow cpu.platform number i h
    have he' : (i.effect other.platform number n).failure = none := by
      rw [hplatform, hfailure, he]
    rw [(Course.done (hfinished.trans hf) (hbounds.trans hb) hi hn' he' :
      other.Course n _).step_eq, hplatform]
    refine ⟨?_, hnext, hmachine.countDown⟩
    rw [hmachine.machine]
    rfl

end Processor

/-! ## Runs -/

namespace Computer

/-- The computers have one platform, are given the same random numbers from now on, and their
machines differ at most in the index register, by a multiple of the size of the memory. -/
structure SameBelow (a b : Computer) : Prop where
  platform : b.processor.platform = a.processor.platform
  ahead : ∀ k, b.processor.source.ahead k = a.processor.source.ahead k
  machine : a.machine.SameBelow b.machine

variable {a b : Computer}

theorem SameBelow.touch (h : a.SameBelow b) (keys : Array Bool → Array Bool) :
    (a.touch keys).SameBelow (b.touch keys) := by
  refine ⟨h.platform, h.ahead, ?_, h.machine.index⟩
  unfold Computer.touch
  rw [h.machine.machine]
  rfl

theorem SameBelow.step (h : a.SameBelow b) :
    b.step.result = a.step.result ∧
      SameBelow ⟨a.step.processor, a.step.machine⟩ ⟨b.step.processor, b.step.machine⟩ := by
  obtain ⟨hresult, hahead, hmachine⟩ := Processor.step_sameBelow h.platform h.ahead h.machine
  refine ⟨hresult, ?_, hahead, hmachine⟩
  unfold Computer.step
  rw [(b.processor.step_processor _).1, (a.processor.step_processor _).1, h.platform]

theorem SameBelow.after (h : a.SameBelow b) (keys : Nat → Array Bool → Array Bool) (n : Nat) :
    (a.after keys n).SameBelow (b.after keys n) := by
  induction n with
  | zero => exact h
  | succ n ih => exact (ih.touch (keys n)).step.2

end Computer

/-- The bits of the index register above an address are unseen. Let two machines be equal but for
their index registers, which differ by a multiple of the size of the memory, and let both run on
one platform with the same random numbers and the same keys. Then all their steps come to the
same, and after any number of steps the machines are still equal but for such a multiple. -/
theorem index_bits_unseen {a b : Computer}
    (hplatform : b.processor.platform = a.processor.platform)
    (hahead : ∀ k, b.processor.source.ahead k = a.processor.source.ahead k)
    (hmachine : b.machine = { a.machine with index := b.machine.index })
    (hindex : 4096 ∣ b.machine.index - a.machine.index)
    (keys : Nat → Array Bool → Array Bool) (n : Nat) :
    (∀ k < n, (b.ready keys k).step.result = (a.ready keys k).step.result) ∧
      (b.after keys n).machine =
        { (a.after keys n).machine with index := (b.after keys n).machine.index } ∧
      4096 ∣ (b.after keys n).machine.index - (a.after keys n).machine.index := by
  have hstart : a.SameBelow b := ⟨hplatform, hahead, hmachine, hindex⟩
  refine ⟨fun k _ => ((hstart.after keys k).touch (keys k)).step.1, ?_, ?_⟩
  · exact (hstart.after keys n).machine.machine
  · exact (hstart.after keys n).machine.index

/-- A program that stores V0 to V2 at I and adds 5 to I. -/
def wrappingProgram : List UInt8 := [0xF2, 0x55, 0x60, 0x05, 0xF0, 0x1E]

/-- A computer with the wrapping program and an index register to start with. -/
def wrappingComputer (index : Int) : Computer where
  processor := modernProcessor
  machine := { Machine.holding modernProcessor.platform wrappingProgram with index := index }

theorem index_bits_unseen_wrapping :
    (4096 : Int) ∣ 0xFFFE - 0xFFE ∧
      ((wrappingComputer 0xFFE).after (fun _ => id) 3).machine.index = 0x1003 ∧
      ((wrappingComputer 0xFFFE).after (fun _ => id) 3).machine =
        { ((wrappingComputer 0xFFE).after (fun _ => id) 3).machine with index := 0x0003 } := by
  have hindex : (4096 : Int) ∣ 0xFFFE - 0xFFE := by decide
  have hends : ((wrappingComputer 0xFFE).after (fun _ => id) 3).machine.index = 0x1003 ∧
      ((wrappingComputer 0xFFFE).after (fun _ => id) 3).machine.index = 0x0003 := by
    decide +kernel
  obtain ⟨-, hmachine, -⟩ := @index_bits_unseen (wrappingComputer 0xFFE) (wrappingComputer 0xFFFE)
    rfl (fun _ => rfl) rfl hindex (fun _ => id) 3
  exact ⟨hindex, hends.1, hmachine.trans (congrArg (Machine.withIndex _) hends.2)⟩

end Chip8
