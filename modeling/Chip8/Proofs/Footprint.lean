/-
  The footprint of an instruction: which parts of the machine it leaves alone, and what it puts
  in place of the others. The updates that instructions are made of come first, each written out
  as the machine with some fields replaced. `effect_footprint` says once, for all instructions,
  what the later proofs use of them; only calls and returns touch the call stack, and those are
  described by `effect_call` and `effect_ret`.
-/
import Chip8.Effect
import Chip8.Proofs.Drawing
namespace Chip8

namespace CallStack

/-- The top entry; 0 on an empty stack. -/
def top (s : CallStack) : Int := s.slots.getD (s.depth - 1) 0

theorem pop_eq_ok {s t : CallStack} {entry : Int} (h : s.pop = .ok (entry, t)) :
    s.depth = t.depth + 1 ∧ entry = s.top ∧ t.capacity = s.capacity ∧ t.slots = s.slots := by
  unfold pop at h
  split at h
  · cases h
  · rename_i d hd
    simp only [Except.ok.injEq, Prod.mk.injEq] at h
    obtain ⟨rfl, rfl⟩ := h
    refine ⟨hd, ?_, rfl, rfl⟩
    rw [top, hd, Nat.succ_sub_one]

theorem push_eq_ok {s t : CallStack} {entry : Int} (h : s.push entry = .ok t) :
    (s.depth : Int) < s.capacity ∧ t.depth = s.depth + 1 ∧ t.capacity = s.capacity ∧
      t.slots = s.slots.setIfInBounds s.depth entry := by
  unfold push at h
  split at h
  · cases h
  · rename_i hlt
    simp only [Except.ok.injEq] at h
    subst h
    exact ⟨by omega, rfl, rfl, rfl⟩

end CallStack

namespace Machine

/-! ## Updates -/

theorem reg_setReg_self (m : Machine) (x : Register) (b : UInt8) : (m.setReg x b).reg x = b :=
  Vector.getElem_set_self x.isLt

theorem reg_setReg_ne (m : Machine) {x y : Register} (h : y ≠ x) (b : UInt8) :
    (m.setReg x b).reg y = m.reg y :=
  Vector.getElem_set_ne x.isLt y.isLt fun hval => h (Fin.ext hval.symm)

theorem skipIf_eq (m : Machine) (b : Bool) :
    m.skipIf b = { m with counter := m.counter + if b then 4 else 2 } := by
  cases b
  · rfl
  · simp only [skipIf, advance, if_true, Int.add_assoc]
    rfl

theorem logic_eq (d : Dialect) (m : Machine) (x : Register) (b : UInt8) :
    m.logic d x b = { m with
      registers := if d.logicClearsFlag then ((m.setReg x b).setFlag 0).registers
        else (m.setReg x b).registers
      counter := m.counter + 2 } := by
  unfold logic
  split <;> rfl

theorem moveIndex_eq (d : Dialect) (m : Machine) (count : Nat) :
    m.moveIndex d count = { m with
      index := if d.transferMovesIndex then (m.index + count) % 0x10000 else m.index } := by
  unfold moveIndex
  split <;> rfl

theorem loadBlock_eq (m : Machine) (count : Nat) :
    ∃ registers, m.loadBlock count = { m with registers := registers } := ⟨_, rfl⟩

theorem reg_loadBlock (m : Machine) (count : Nat) (x : Register) :
    (m.loadBlock count).reg x = if x.val < count then m.byteAt (m.index + x.val) else m.reg x :=
  Vector.getElem_ofFn x.isLt

theorem storeBlock_eq (m : Machine) (count : Nat) :
    m.storeBlock count = { m with
      memory := (List.range count).foldl
        (fun (memory : Memory) (k : Nat) =>
          memory.set (Address.ofInt (m.index + k)) (m.registers.toList.getD k 0)) m.memory } := by
  unfold storeBlock
  generalize List.range count = ks
  suffices h : ∀ memory : Memory,
      ks.foldl (fun n (k : Nat) => n.setByteAt (m.index + k) (m.registers.toList.getD k 0))
        { m with memory := memory } = { m with
          memory := ks.foldl
            (fun (memory : Memory) (k : Nat) =>
              memory.set (Address.ofInt (m.index + k)) (m.registers.toList.getD k 0)) memory } from
    h m.memory
  induction ks with
  | nil => intro memory; rfl
  | cons k ks ih => intro memory; exact ih _

/-- Drawing reaches the registers, the screen, the counter and the wish to end the frame. It moves
on by one instruction unless something stops it. -/
theorem drawSprite_eq (d : Dialect) (m : Machine) (x y : Register) (rows : Nat) :
    ∃ registers screen counter awaitingBlank failure,
      m.drawSprite d x y rows =
        ⟨{ m with
            registers := registers, screen := screen, counter := counter
            awaitingBlank := awaitingBlank }, failure⟩ ∧
      screen.frame = m.screen.frame ∧ (m.screen.Binary → screen.Binary) ∧
      (failure = none → counter = m.counter + 2) := by
  simp only [drawSprite]
  split
  · exact ⟨_, _, _, _, _, rfl, rfl, id, nofun⟩
  · split
    · exact ⟨_, _, _, _, _, rfl, Screen.draw_frame _ _ _, fun h => Screen.draw_binary h _ _, nofun⟩
    · exact ⟨_, _, _, _, _, rfl, Screen.draw_frame _ _ _, fun h => Screen.draw_binary h _ _,
        fun _ => rfl⟩

end Machine

namespace Instruction

open Machine

/-! ## What an instruction leaves -/

/-- The delay timer that an instruction leaves. -/
def delayAfter (m : Machine) : Instruction → Int
  | .setDelay x => (m.reg x).toNat
  | _ => m.delay

/-- The sound timer that an instruction leaves. -/
def soundAfter (m : Machine) : Instruction → Int
  | .setSound x => (m.reg x).toNat
  | _ => m.sound

/-- The index register that an instruction leaves. -/
def indexAfter (p : Platform) (m : Machine) : Instruction → Int
  | .setIndex target => target.val
  | .addIndex x => (m.index + (m.reg x).toNat) % 0x10000
  | .pointGlyph x => fontLocation + p.glyphSize * (m.reg x).toNat
  | .storeRegisters x => (m.moveIndex p.dialect (x.val + 1)).index
  | .loadRegisters x => (m.moveIndex p.dialect (x.val + 1)).index
  | _ => m.index

/-- The instruction is a skip whose condition holds. -/
def skips (m : Machine) : Instruction → Bool
  | .skipIfByte x k => m.reg x == k
  | .skipUnlessByte x k => m.reg x != k
  | .skipIfSame x y => m.reg x == m.reg y
  | .skipUnlessSame x y => m.reg x != m.reg y
  | .skipIfHeld x => (m.keyHeld x).toOption == some true
  | .skipUnlessHeld x => (m.keyHeld x).toOption == some false
  | _ => false

/-- The register that an indexed jump adds. -/
def jumpRegister : Register := ⟨0, by decide⟩

/-- The counter that an instruction leaves unless something stops it. -/
def counterAfter (p : Platform) (m : Machine) : Instruction → Int
  | .ret => m.stack.top + 2
  | .jump target => target.val
  | .call target => target.val
  | .jumpOffset target =>
    target.val + if p.dialect.jumpAddsFirst then (m.reg jumpRegister).toNat else 0
  | .waitKey _ => if m.lowestKey?.isSome then m.counter + 2 else m.counter
  | i => m.counter + if i.skips m then 4 else 2

/-- What an instruction leaves alone, and what it puts in place of the rest. -/
structure Footprint (p : Platform) (m : Machine) (i : Instruction) (o : Outcome) : Prop where
  keypad : o.machine.keypad = m.keypad
  programEnd : o.machine.programEnd = m.programEnd
  frame : o.machine.screen.frame = m.screen.frame
  binary : m.screen.Binary → o.machine.screen.Binary
  delay : o.machine.delay = i.delayAfter m
  sound : o.machine.sound = i.soundAfter m
  index : o.machine.index = i.indexAfter p m
  stack : (∀ target, i ≠ .call target) → i ≠ .ret → o.machine.stack = m.stack
  counter : o.failure = none → o.machine.counter = i.counterAfter p m

theorem effect_footprint (p : Platform) (number : Int) (i : Instruction) (m : Machine) :
    i.Footprint p m (i.effect p number m) := by
  cases i with
  | clear =>
    simp only [effect]
    cases h : m.screen.clear with
    | ok screen =>
      exact ⟨rfl, rfl, Screen.clear_frame h, fun hb => Screen.clear_binary hb h, rfl, rfl, rfl,
        fun _ _ => rfl, fun _ => rfl⟩
    | error e => exact ⟨rfl, rfl, rfl, id, rfl, rfl, rfl, fun _ _ => rfl, nofun⟩
  | draw x y rows =>
    obtain ⟨registers, screen, counter, awaitingBlank, failure, h, hframe, hbinary, hcounter⟩ :=
      m.drawSprite_eq p.dialect x y rows
    simp only [effect, h]
    exact ⟨rfl, rfl, hframe, hbinary, rfl, rfl, rfl, fun _ _ => rfl, hcounter⟩
  | ret =>
    simp only [effect]
    cases h : m.stack.pop with
    | ok r =>
      obtain ⟨-, htop, -, -⟩ := CallStack.pop_eq_ok h
      exact ⟨rfl, rfl, rfl, id, rfl, rfl, rfl, fun _ hr => absurd rfl hr,
        fun _ => congrArg (· + 2) htop⟩
    | error e => exact ⟨rfl, rfl, rfl, id, rfl, rfl, rfl, fun _ _ => rfl, nofun⟩
  | call target =>
    simp only [effect]
    cases h : m.stack.push m.counter with
    | ok stack =>
      exact ⟨rfl, rfl, rfl, id, rfl, rfl, rfl, fun hc _ => absurd rfl (hc target), fun _ => rfl⟩
    | error e => exact ⟨rfl, rfl, rfl, id, rfl, rfl, rfl, fun _ _ => rfl, nofun⟩
  | skipIfByte | skipUnlessByte | skipIfSame | skipUnlessSame =>
    simp only [effect, skipIf_eq]
    exact ⟨rfl, rfl, rfl, id, rfl, rfl, rfl, fun _ _ => rfl, fun _ => rfl⟩
  | skipIfHeld x | skipUnlessHeld x =>
    simp only [effect, skipOnKey, skipIf_eq]
    cases h : m.keyHeld x with
    | ok now =>
      refine ⟨rfl, rfl, rfl, id, rfl, rfl, rfl, fun _ _ => rfl, fun _ => ?_⟩
      simp only [counterAfter, skips, h]
      cases now <;> rfl
    | error e => exact ⟨rfl, rfl, rfl, id, rfl, rfl, rfl, fun _ _ => rfl, nofun⟩
  | orWith | andWith | xorWith =>
    simp only [effect, logic_eq]
    exact ⟨rfl, rfl, rfl, id, rfl, rfl, rfl, fun _ _ => rfl, fun _ => rfl⟩
  | readDelay x =>
    simp only [effect]
    cases byte? m.delay with
    | some b => exact ⟨rfl, rfl, rfl, id, rfl, rfl, rfl, fun _ _ => rfl, fun _ => rfl⟩
    | none => exact ⟨rfl, rfl, rfl, id, rfl, rfl, rfl, fun _ _ => rfl, nofun⟩
  | waitKey x =>
    simp only [effect, takeKey]
    cases h : m.lowestKey? with
    | none =>
      refine ⟨rfl, rfl, rfl, id, rfl, rfl, rfl, fun _ _ => rfl, fun _ => ?_⟩
      simp only [counterAfter, h]
      rfl
    | some key =>
      dsimp only
      cases byte? key with
      | some b =>
        refine ⟨rfl, rfl, rfl, id, rfl, rfl, rfl, fun _ _ => rfl, fun _ => ?_⟩
        simp only [counterAfter, h]
        rfl
      | none => exact ⟨rfl, rfl, rfl, id, rfl, rfl, rfl, fun _ _ => rfl, nofun⟩
  | storeRegisters x =>
    simp only [effect, storeBlock_eq, moveIndex_eq]
    exact ⟨rfl, rfl, rfl, id, rfl, rfl, by rw [indexAfter, moveIndex_eq]; rfl, fun _ _ => rfl,
      fun _ => rfl⟩
  | loadRegisters x =>
    obtain ⟨registers, h⟩ := m.loadBlock_eq (x.val + 1)
    simp only [effect, h, moveIndex_eq]
    exact ⟨rfl, rfl, rfl, id, rfl, rfl, by rw [indexAfter, moveIndex_eq]; rfl, fun _ _ => rfl,
      fun _ => rfl⟩
  | _ => exact ⟨rfl, rfl, rfl, id, rfl, rfl, rfl, fun _ _ => rfl, fun _ => rfl⟩

/-- A call that succeeds puts the counter on the stack. -/
theorem effect_call {p : Platform} {number : Int} {target : Address} {m : Machine}
    (h : ((call target).effect p number m).failure = none) :
    m.stack.push m.counter = .ok ((call target).effect p number m).machine.stack := by
  simp only [effect] at h ⊢
  cases hp : m.stack.push m.counter with
  | ok stack => rfl
  | error e => rw [hp] at h; cases h

/-- A return that succeeds takes the top entry off the stack. -/
theorem effect_ret {p : Platform} {number : Int} {m : Machine}
    (h : (ret.effect p number m).failure = none) :
    m.stack.pop = .ok (m.stack.top, (ret.effect p number m).machine.stack) := by
  simp only [effect] at h ⊢
  cases hp : m.stack.pop with
  | ok r =>
    obtain ⟨-, htop, -, -⟩ := CallStack.pop_eq_ok hp
    rw [← htop]
  | error e => rw [hp] at h; cases h

/-- An instruction that succeeds leaves the stack alone, or is a call, or is a return. -/
theorem effect_stack {p : Platform} {number : Int} {i : Instruction} {m : Machine}
    (h : (i.effect p number m).failure = none) :
    (i ≠ .ret ∧ (i.effect p number m).machine.stack = m.stack) ∨
      (i ≠ .ret ∧ m.stack.push m.counter = .ok (i.effect p number m).machine.stack) ∨
      (i = .ret ∧ m.stack.pop = .ok (m.stack.top, (i.effect p number m).machine.stack)) := by
  cases i with
  | call target => exact Or.inr (Or.inl ⟨nofun, effect_call h⟩)
  | ret => exact Or.inr (Or.inr ⟨rfl, effect_ret h⟩)
  | _ => exact Or.inl ⟨nofun, (effect_footprint p number _ m).stack nofun nofun⟩

end Instruction

end Chip8
