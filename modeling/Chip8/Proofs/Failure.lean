/-
  When an instruction fails, on a machine whose parts have their sizes: a return with no call
  open, a call with all slots in use, and a read of a delay timer that holds no byte. Nothing
  else fails, whatever the registers, the index register, the counter and the pixels hold, and
  whatever fails has not yet changed anything (`effect_failure`, `machine_of_failure`).
-/
import Chip8.Proofs.Flips
import Chip8.Proofs.Footprint
namespace Chip8

/-- A stack of sixteen slots with its depth within them. -/
structure CallStack.Sound (s : CallStack) : Prop where
  capacity : s.capacity = stackDepth
  slots : s.slots.size = stackDepth
  depth : s.depth ≤ stackDepth

namespace CallStack.Sound

variable {s t : CallStack} {entry : Int}

theorem push (hs : s.Sound) (h : s.push entry = .ok t) : t.Sound := by
  obtain ⟨hlt, hdepth, hcapacity, hslots⟩ := push_eq_ok h
  rw [hs.capacity] at hlt
  refine ⟨by rw [hcapacity, hs.capacity], ?_, by omega⟩
  rw [hslots, Array.size_setIfInBounds, hs.slots]

theorem pop (hs : s.Sound) (h : s.pop = .ok (entry, t)) : t.Sound := by
  obtain ⟨hdepth, -, hcapacity, hslots⟩ := pop_eq_ok h
  have := hs.depth
  exact ⟨by rw [hcapacity, hs.capacity], by rw [hslots, hs.slots], by omega⟩

theorem entries_push (hs : s.Sound) (h : s.push entry = .ok t) :
    t.entries = s.entries ++ [entry] := by
  obtain ⟨hlt, -, -, -⟩ := push_eq_ok h
  rw [hs.capacity] at hlt
  exact CallStack.entries_push (by rw [hs.slots]; omega) h

theorem entries_pop (hs : s.Sound) (h : s.pop = .ok (entry, t)) :
    s.entries = t.entries ++ [entry] :=
  CallStack.entries_pop (by rw [hs.slots]; exact hs.depth) h

theorem length_entries (hs : s.Sound) : s.entries.length = s.depth := by
  have := hs.depth
  rw [entries, List.length_take, Array.length_toList, hs.slots]
  omega

end CallStack.Sound

namespace Machine

/-- The parts of the machine have their sizes: sixteen slots on the call stack, sixteen keys, and
a screen with room and with one cell for each pixel. -/
structure Shaped (m : Machine) : Prop where
  stack : m.stack.Sound
  keypad : m.keypad.size = keyCount
  width : 0 < m.screen.width
  height : 0 < m.screen.height
  filled : m.screen.Filled

variable {m : Machine}

theorem Shaped.screen (hm : m.Shaped) : m.screen.Sound := ⟨hm.width, hm.height, hm.filled⟩

theorem byte?_eq_some {value : Int} (h0 : 0 ≤ value) (h : value < 256) :
    byte? value = some (UInt8.ofNat value.toNat) := if_pos ⟨h0, h⟩

theorem toNat_of_byte? {value : Int} {b : UInt8} (h : byte? value = some b) :
    (b.toNat : Int) = value := by
  unfold byte? at h
  split at h
  · cases h
    rw [UInt8.toNat_ofNat']
    omega
  · cases h

/-- A sprite lies right of and below its corner. -/
theorem spritePoints_nonneg {x y : Int} (hx : 0 ≤ x) (hy : 0 ≤ y) (rows : Nat) :
    ∀ p ∈ m.spritePoints x y rows, 0 ≤ p.1 ∧ 0 ≤ p.2 := by
  intro p hp
  obtain ⟨dy, -, hp⟩ := List.mem_flatMap.mp hp
  obtain ⟨dx, -, rfl⟩ := List.mem_map.mp hp
  exact ⟨by dsimp only; omega, by dsimp only; omega⟩

theorem Shaped.drawSprite_failure (hm : m.Shaped) (d : Dialect) (x y : Register) (rows : Nat) :
    (m.drawSprite d x y rows).failure = none := by
  have hw := hm.width
  have hh := hm.height
  have hpoints := spritePoints_nonneg (m := m) (Int.fmod_nonneg_of_pos ((m.reg x).toNat : Int) hw)
    (Int.fmod_nonneg_of_pos ((m.reg y).toNat : Int) hh) rows
  have hdraw := (Screen.draw_eq hw hh hm.filled 0 hpoints).1
  simp only [drawSprite]
  rw [if_neg (by omega), hdraw]

theorem Shaped.keyHeld_ok (hm : m.Shaped) (x : Register) : ∃ held, m.keyHeld x = .ok held := by
  unfold keyHeld
  split
  · exact ⟨false, rfl⟩
  · rename_i hlt
    have hk : (m.reg x).toNat < m.keypad.size := by rw [hm.keypad]; omega
    rw [Array.getElem?_eq_getElem hk]
    exact ⟨_, rfl⟩

/-- The lowest held key has a number that fits into a register. -/
theorem Shaped.byte?_lowestKey (hm : m.Shaped) {key : Nat} (h : m.lowestKey? = some key) :
    byte? key = some (UInt8.ofNat key) := by
  obtain ⟨hlt, -⟩ := List.findIdx?_eq_some_iff_getElem.mp h
  rw [Array.length_toList, hm.keypad] at hlt
  have h16 : key < 16 := hlt
  exact byte?_eq_some (by omega) (by omega)

end Machine

namespace Instruction

open Machine

/-- What stops an instruction on a machine whose parts have their sizes. -/
def failureOn (m : Machine) : Instruction → Option Failure
  | .ret => if m.stack.depth = 0 then some (.fault .stackUnderflow) else none
  | .call _ => if m.stack.depth = stackDepth then some (.fault .stackOverflow) else none
  | .readDelay _ => if 0 ≤ m.delay ∧ m.delay < 256 then none else some (.misuse .valueOutOfRange)
  | _ => none

/-- An instruction fails exactly as foretold, and then before it has changed anything. -/
theorem effect_failure {m : Machine} (hm : m.Shaped) (p : Platform) (number : Int)
    (i : Instruction) :
    (i.effect p number m).failure = i.failureOn m ∧
      ((i.effect p number m).failure ≠ none → (i.effect p number m).machine = m) := by
  cases i with
  | clear =>
    obtain ⟨screen, h⟩ := Screen.clear_ok hm.filled hm.width hm.height
    simp only [effect, h]
    exact ⟨rfl, fun hf => absurd rfl hf⟩
  | ret =>
    cases hd : m.stack.depth with
    | zero =>
      simp only [effect, failureOn, CallStack.pop, hd, if_true]
      exact ⟨trivial, fun _ => trivial⟩
    | succ d =>
      simp only [effect, failureOn, CallStack.pop, hd]
      exact ⟨rfl, fun hf => absurd rfl hf⟩
  | call target =>
    have hdepth := hm.stack.depth
    simp only [effect, failureOn, CallStack.push, hm.stack.capacity]
    by_cases hd : m.stack.depth = stackDepth
    · rw [if_pos (by omega), if_pos hd]
      exact ⟨rfl, fun _ => rfl⟩
    · rw [if_neg (by omega), if_neg hd]
      exact ⟨rfl, fun hf => absurd rfl hf⟩
  | draw x y rows =>
    have h := hm.drawSprite_failure p.dialect x y rows
    exact ⟨h, fun hf => absurd h hf⟩
  | skipIfHeld x | skipUnlessHeld x =>
    obtain ⟨held, h⟩ := hm.keyHeld_ok x
    simp only [effect, skipOnKey, h]
    exact ⟨rfl, fun hf => absurd rfl hf⟩
  | readDelay x =>
    simp only [effect, failureOn, byte?]
    by_cases hd : 0 ≤ m.delay ∧ m.delay < 256
    · rw [if_pos hd, if_pos hd]
      exact ⟨rfl, fun hf => absurd rfl hf⟩
    · rw [if_neg hd, if_neg hd]
      exact ⟨rfl, fun _ => rfl⟩
  | waitKey x =>
    simp only [effect, takeKey]
    cases h : m.lowestKey? with
    | none => exact ⟨rfl, fun hf => absurd rfl hf⟩
    | some key =>
      simp only [hm.byte?_lowestKey h]
      exact ⟨rfl, fun hf => absurd rfl hf⟩
  | _ => exact ⟨rfl, fun hf => absurd rfl hf⟩

theorem machine_of_failure {m : Machine} (hm : m.Shaped) {p : Platform} {number : Int}
    {i : Instruction} {e : Failure} (h : (i.effect p number m).failure = some e) :
    (i.effect p number m).machine = m :=
  (effect_failure hm p number i).2 (by rw [h]; exact Option.some_ne_none e)

end Instruction

end Chip8
