/-
  The instructions that carry blocks between the registers and the memory. Such a block lies at
  consecutive addresses from I on, and goes on at address 0 past the end of the memory. What a
  memory holds after bytes were put into it is said once for any bytes that do not overtake
  themselves (`byteAt_storeBytes`, `getElem_storeBytes`). Stored registers and stored digits are
  bytes put in like that, and a load takes its bytes from the same addresses.
-/
import Mathlib
import Chip8.Proofs.Jobs
namespace Chip8

/-- Consecutive addresses are distinct as long as they do not fill more than the memory. -/
theorem Address.ofInt_add_ne {start : Int} {k j : Nat} (hkj : k < j) (hj : j < k + memorySize) :
    ofInt (start + j) ≠ ofInt (start + k) := by
  intro h
  have hval := congrArg (fun a : Address => (a.val : Int)) h
  simp only [val_ofInt] at hval
  unfold memorySize at hj
  omega

namespace Machine

/-! ## Bytes put into the memory -/

/-- The machine with bytes stored at consecutive addresses. -/
def storeBytes (m : Machine) (start : Int) : List UInt8 → Machine
  | [] => m
  | b :: bytes => (m.setByteAt start b).storeBytes (start + 1) bytes

variable {m : Machine} {start : Int} {bytes : List UInt8}

theorem storeBytes_append (m : Machine) (start : Int) (bytes others : List UInt8) :
    m.storeBytes start (bytes ++ others) =
      (m.storeBytes start bytes).storeBytes (start + bytes.length) others := by
  induction bytes generalizing m start with
  | nil => rw [List.nil_append, storeBytes, List.length_nil, Int.natCast_zero, Int.add_zero]
  | cons b bytes ih =>
    rw [List.cons_append, storeBytes, storeBytes, ih, List.length_cons, Int.natCast_succ,
      Int.add_assoc, Int.add_comm 1]

theorem storeBytes_eq (m : Machine) (start : Int) (bytes : List UInt8) :
    m.storeBytes start bytes = { m with memory := (m.storeBytes start bytes).memory } := by
  induction bytes generalizing m start with
  | nil => rfl
  | cons b bytes ih =>
    rw [storeBytes, ih]
    rfl

/-- The bytes end up in the same place if the addresses are the same, whatever else a machine
holds. -/
theorem memory_storeBytes_congr {n : Machine} (hmemory : n.memory = m.memory) {other : Int}
    (h : 4096 ∣ other - start) (bytes : List UInt8) :
    (n.storeBytes other bytes).memory = (m.storeBytes start bytes).memory := by
  induction bytes generalizing m n start other with
  | nil => exact hmemory
  | cons b bytes ih =>
    have hfirst : (n.setByteAt other b).memory = (m.setByteAt start b).memory := by
      simp only [setByteAt, hmemory, Address.ofInt_congr h]
    exact ih hfirst (by omega)

/-- A byte stays that lies at no address of the block. -/
theorem getElem_storeBytes {a : Address}
    (ha : ∀ k < bytes.length, a ≠ Address.ofInt (start + (k : Nat))) :
    (m.storeBytes start bytes).memory[a] = m.memory[a] := by
  induction bytes generalizing m start with
  | nil => rfl
  | cons b bytes ih =>
    have hfirst : a ≠ Address.ofInt start := by
      have h := ha 0 (Nat.succ_pos _)
      rwa [Int.natCast_zero, Int.add_zero] at h
    have hrest : ∀ k < bytes.length, a ≠ Address.ofInt (start + 1 + (k : Nat)) := by
      intro k hk
      have h := ha (k + 1) (Nat.succ_lt_succ hk)
      rwa [Int.natCast_succ, Int.add_comm (k : Int), ← Int.add_assoc] at h
    rw [storeBytes, ih hrest]
    exact Vector.getElem_set_ne (Address.ofInt start).isLt a.isLt fun hval =>
      hfirst (Fin.ext hval.symm)

/-- A block that fits into the memory is found where it was put. -/
theorem byteAt_storeBytes (hfits : bytes.length ≤ memorySize) {k : Nat} (hk : k < bytes.length)
    {i : Int} (hi : i = start + k) : (m.storeBytes start bytes).byteAt i = bytes[k] := by
  induction bytes generalizing m start k with
  | nil => cases hk
  | cons b bytes ih =>
    rw [List.length_cons] at hfits
    cases k with
    | zero =>
      -- the bytes after the first do not come round to it
      have hrest : ∀ j < bytes.length, Address.ofInt i ≠ Address.ofInt (start + 1 + (j : Nat)) := by
        intro j hj
        have hne := @Address.ofInt_add_ne start _ _ (Nat.succ_pos j) (by omega)
        rw [Int.natCast_succ, Int.add_comm (j : Int), ← Int.add_assoc] at hne
        exact hi ▸ hne.symm
      have hfirst : i = start := hi.trans (Int.add_zero start)
      rw [storeBytes, byteAt, getElem_storeBytes hrest]
      subst hfirst
      exact Vector.getElem_set_self (Address.ofInt i).isLt
    | succ k => exact ih (by omega) (Nat.lt_of_succ_lt_succ hk) (by omega)

end Machine

/-! ## Blocks -/

/-- The values of V0 to Vx. -/
def lowRegisters (registers : Vector UInt8 registerCount) (x : Register) : List UInt8 :=
  registers.toList.take (x.val + 1)

theorem length_lowRegisters (registers : Vector UInt8 registerCount) (x : Register) :
    (lowRegisters registers x).length = x.val + 1 := by
  rw [lowRegisters, List.length_take, Vector.length_toList]
  exact Nat.min_eq_left x.isLt

theorem getElem?_lowRegisters (registers : Vector UInt8 registerCount) {k x : Register}
    (hk : k ≤ x) : (lowRegisters registers x)[k.val]? = some (registers.get k) := by
  have hlt : k.val < registers.toList.length := by
    rw [Vector.length_toList]
    exact k.isLt
  rw [lowRegisters, List.getElem?_take_of_lt (Nat.lt_succ_of_le hk), List.getElem?_eq_getElem hlt]
  rfl

namespace Machine

theorem storeBlock_eq_storeBytes (m : Machine) {count : Nat} (h : count ≤ registerCount) :
    m.storeBlock count = m.storeBytes m.index (m.registers.toList.take count) := by
  unfold storeBlock
  induction count with
  | zero => rfl
  | succ count ih =>
    have hlt : count < m.registers.toList.length := by
      rw [Vector.length_toList]
      exact h
    have hlast : m.registers.toList.take (count + 1) =
        m.registers.toList.take count ++ [m.registers.toList.getD count 0] := by
      rw [List.take_add_one, List.getD_eq_getElem?_getD, List.getElem?_eq_getElem hlt]
      rfl
    rw [List.range_succ, List.foldl_append, ih (by omega), hlast, storeBytes_append,
      List.length_take_of_le (Nat.le_of_lt hlt)]
    rfl

/-- The decimal digits of a byte, hundreds first. -/
def decimal (b : UInt8) : List UInt8 := [b / 100, b / 10 % 10, b % 10]

theorem storeDecimal_eq_storeBytes (m : Machine) (b : UInt8) :
    m.storeDecimal b = m.storeBytes m.index (decimal b) := by
  have hsum : m.index + 1 + 1 = m.index + 2 := by omega
  simp only [storeDecimal, decimal, storeBytes, hsum]

/-! ## What the transfers leave -/

/-- I after a transfer of V0 to Vx. -/
def indexPast (d : Dialect) (m : Machine) (x : Register) : Int :=
  if d.transferMovesIndex then (m.index + (x.val + 1)) % 0x10000 else m.index

/-- The later machine has V0 to Vx in its memory, at I of the earlier one. -/
structure Stores (d : Dialect) (m : Machine) (x : Register) (later : Machine) : Prop where
  bytes : ∀ k ≤ x, later.byteAt (m.index + k.val) = m.reg k
  others : ∀ a, (∀ k ≤ x, a ≠ Address.ofInt (m.index + k.val)) → later.memory[a] = m.memory[a]
  rest : later =
    { m with memory := later.memory, index := m.indexPast d x, counter := m.counter + 2 }

/-- The later machine has in V0 to Vx the bytes at I of the earlier one. -/
structure Loads (d : Dialect) (m : Machine) (x : Register) (later : Machine) : Prop where
  registers : ∀ k ≤ x, later.reg k = m.byteAt (m.index + k.val)
  others : ∀ k, x < k → later.reg k = m.reg k
  rest : later =
    { m with registers := later.registers, index := m.indexPast d x, counter := m.counter + 2 }

/-- The bytes are the decimal digits of a number. -/
structure Digits (number : Nat) (hundreds tens units : UInt8) : Prop where
  hundreds_le : hundreds ≤ 9
  tens_le : tens ≤ 9
  units_le : units ≤ 9
  sum : 100 * hundreds.toNat + 10 * tens.toNat + units.toNat = number

/-- The later machine has the digits of Vx in its memory, at I. -/
structure StoresDigits (m : Machine) (x : Register) (later : Machine) : Prop where
  digits : Digits (m.reg x).toNat (later.byteAt m.index) (later.byteAt (m.index + 1))
    (later.byteAt (m.index + 2))
  others : ∀ a, (∀ k < 3, a ≠ Address.ofInt (m.index + (k : Nat))) → later.memory[a] = m.memory[a]
  rest : later = { m with memory := later.memory, counter := m.counter + 2 }

theorem digits_toNat (b : UInt8) : Digits b.toNat (b / 100) (b / 10 % 10) (b % 10) where
  hundreds_le := by
    have hb := b.toNat_lt
    rw [UInt8.le_iff_toNat_le, UInt8.toNat_div]
    change b.toNat / 100 ≤ 9
    omega
  tens_le := by
    rw [UInt8.le_iff_toNat_le, UInt8.toNat_mod, UInt8.toNat_div]
    change b.toNat / 10 % 10 ≤ 9
    omega
  units_le := by
    rw [UInt8.le_iff_toNat_le, UInt8.toNat_mod]
    change b.toNat % 10 ≤ 9
    omega
  sum := by
    rw [UInt8.toNat_mod, UInt8.toNat_mod, UInt8.toNat_div, UInt8.toNat_div]
    change 100 * (b.toNat / 100) + 10 * (b.toNat / 10 % 10) + b.toNat % 10 = b.toNat
    omega

/-- The digits of a byte, put into the memory, are read there. -/
theorem digits_storeBytes (m : Machine) (start : Int) (b : UInt8) :
    Digits b.toNat ((m.storeBytes start (decimal b)).byteAt start)
      ((m.storeBytes start (decimal b)).byteAt (start + 1))
      ((m.storeBytes start (decimal b)).byteAt (start + 2)) := by
  have hfits : (decimal b).length ≤ memorySize := (by decide : 3 ≤ 4096)
  have hhundreds : (m.storeBytes start (decimal b)).byteAt start = b / 100 :=
    byteAt_storeBytes hfits (k := 0) (by decide : 0 < 3) (Int.add_zero start).symm
  have htens : (m.storeBytes start (decimal b)).byteAt (start + 1) = b / 10 % 10 :=
    byteAt_storeBytes hfits (k := 1) (by decide : 1 < 3) rfl
  have hunits : (m.storeBytes start (decimal b)).byteAt (start + 2) = b % 10 :=
    byteAt_storeBytes hfits (k := 2) (by decide : 2 < 3) rfl
  rw [hhundreds, htens, hunits]
  exact digits_toNat b

end Machine

namespace Instruction

open Machine

variable (p : Platform) (number : Int) (m : Machine) (x : Register)

theorem effect_storeRegisters :
    (storeRegisters x).effect p number m =
      ⟨{ m with
        memory := (m.storeBytes m.index (lowRegisters m.registers x)).memory
        index := m.indexPast p.dialect x
        counter := m.counter + 2 }, none⟩ := by
  rw [effect, storeBlock_eq_storeBytes m x.isLt, storeBytes_eq, moveIndex_eq, Int.natCast_succ]
  rfl

theorem effect_loadRegisters :
    (loadRegisters x).effect p number m =
      ⟨{ m with
        registers := (m.loadBlock (x.val + 1)).registers
        index := m.indexPast p.dialect x
        counter := m.counter + 2 }, none⟩ := by
  obtain ⟨registers, h⟩ := m.loadBlock_eq (x.val + 1)
  simp only [effect, h, moveIndex_eq, indexPast, Int.natCast_succ]
  rfl

theorem effect_storeDigits :
    (storeDigits x).effect p number m =
      ⟨{ m with
        memory := (m.storeBytes m.index (decimal (m.reg x))).memory
        counter := m.counter + 2 }, none⟩ := by
  rw [effect, storeDecimal_eq_storeBytes, storeBytes_eq]
  rfl

theorem stores_effect : m.Stores p.dialect x ((storeRegisters x).effect p number m).machine := by
  have hx : x.val < 16 := x.isLt
  have hlength := length_lowRegisters m.registers x
  rw [effect_storeRegisters]
  refine ⟨fun k hk => ?_, fun a ha => ?_, rfl⟩
  · obtain ⟨hlt, hbyte⟩ := List.getElem?_eq_some_iff.mp (getElem?_lowRegisters m.registers hk)
    have hfits : (lowRegisters m.registers x).length ≤ 4096 := by omega
    exact (byteAt_storeBytes hfits hlt rfl).trans hbyte
  · refine getElem_storeBytes fun k hk => ?_
    rw [hlength] at hk
    exact ha ⟨k, by omega⟩ (Nat.le_of_lt_succ hk)

theorem loads_effect : m.Loads p.dialect x ((loadRegisters x).effect p number m).machine := by
  rw [effect_loadRegisters]
  refine ⟨fun k hk => ?_, fun k hk => ?_, rfl⟩
  · exact (m.reg_loadBlock (x.val + 1) k).trans (if_pos (Nat.lt_succ_of_le hk))
  · exact (m.reg_loadBlock (x.val + 1) k).trans (if_neg (Nat.not_lt_of_ge hk))

theorem storesDigits_effect :
    m.StoresDigits x ((storeDigits x).effect p number m).machine := by
  rw [effect_storeDigits]
  refine ⟨digits_storeBytes m m.index (m.reg x), fun a ha => ?_, rfl⟩
  exact getElem_storeBytes ha

end Instruction

/-- What the instructions do that carry blocks, wherever I points and whether or not the dialect
moves it. Each is carried out. A store puts V0 to Vx into the memory and leaves every other byte and
all registers, a load takes them from there and leaves every other register and all bytes, and a
number is put there as three decimal digits. -/
theorem transfer_law (cpu : Processor) (m : Machine) (x : Register) :
    ((cpu.execute (wordOfByte 0xF x 0x55) m).result = .ok true ∧
      m.Stores cpu.platform.dialect x (cpu.execute (wordOfByte 0xF x 0x55) m).machine) ∧
    ((cpu.execute (wordOfByte 0xF x 0x65) m).result = .ok true ∧
      m.Loads cpu.platform.dialect x (cpu.execute (wordOfByte 0xF x 0x65) m).machine) ∧
    ((cpu.execute (wordOfByte 0xF x 0x33) m).result = .ok true ∧
      m.StoresDigits x (cpu.execute (wordOfByte 0xF x 0x33) m).machine) := by
  have hstore : cpu.execute (wordOfByte 0xF x 0x55) m = _ :=
    Processor.execute_word cpu (i := .storeRegisters x) rfl rfl
  have hload : cpu.execute (wordOfByte 0xF x 0x65) m = _ :=
    Processor.execute_word cpu (i := .loadRegisters x) rfl rfl
  have hdigits : cpu.execute (wordOfByte 0xF x 0x33) m = _ :=
    Processor.execute_word cpu (i := .storeDigits x) rfl rfl
  rw [hstore, hload, hdigits]
  exact ⟨⟨rfl, Instruction.stores_effect cpu.platform 0 m x⟩,
    ⟨rfl, Instruction.loads_effect cpu.platform 0 m x⟩,
    ⟨rfl, Instruction.storesDigits_effect cpu.platform 0 m x⟩⟩

end Chip8
