/-
  The law of the counter. `Machine.nextCounter` says for each word where the counter goes from it,
  read off the digits of the word and not off its instruction. A step that is not stopped goes
  there, whatever the word is, and the skips come in pairs of which exactly one skips
  (`counter_law`).
-/
import Chip8.Proofs.Atomicity
import Chip8.Proofs.History
namespace Chip8

/-! ## The digits of a word -/

/-- The register of the last hexadecimal digit of a number. -/
def registerOf (n : Nat) : Register := ⟨n % 0x10, Nat.mod_lt n (by decide)⟩

theorem digits_wordOfNibbles {n : Nat} (hn : n < 0x10) (c : Nat) (x y : Register) :
    wordOfNibbles c x y n / 0x1000 = c ∧
      registerOf (wordOfNibbles c x y n / 0x100) = x ∧
      registerOf (wordOfNibbles c x y n / 0x10) = y ∧ wordOfNibbles c x y n % 0x10 = n := by
  have hx : x.val < 0x10 := x.isLt
  have hy : y.val < 0x10 := y.isLt
  unfold wordOfNibbles
  refine ⟨by omega, Fin.ext ?_, Fin.ext ?_, by omega⟩
  · simp only [registerOf]
    omega
  · simp only [registerOf]
    omega

theorem digits_wordOfByte (c : Nat) (x : Register) (k : UInt8) :
    wordOfByte c x k / 0x1000 = c ∧ registerOf (wordOfByte c x k / 0x100) = x ∧
      wordOfByte c x k % 0x100 = k.toNat := by
  have hx : x.val < 0x10 := x.isLt
  have hk := k.toNat_lt
  unfold wordOfByte
  refine ⟨by omega, Fin.ext ?_, by omega⟩
  simp only [registerOf]
  omega

theorem digits_wordOfAddress (c : Nat) (a : Address) :
    wordOfAddress c a / 0x1000 = c ∧ wordOfAddress c a % 0x1000 = a.val := by
  have ha : a.val < 0x1000 := a.isLt
  unfold wordOfAddress
  omega

theorem beq_toNat (a b : UInt8) : (a.toNat == b.toNat) = (a == b) := by
  rw [Bool.eq_iff_iff, beq_iff_eq, beq_iff_eq, UInt8.toNat_inj]

namespace Machine

/-- A key is held. A byte above F is the number of no key. -/
def holds (m : Machine) (key : UInt8) : Bool := m.keypad[key.toNat]? == some true

/-- The word is a skip whose condition holds. -/
def skipDue (m : Machine) (word : Nat) : Bool :=
  let vx := m.reg (registerOf (word / 0x100))
  let vy := m.reg (registerOf (word / 0x10))
  match word / 0x1000 with
  | 0x3 => vx.toNat == word % 0x100
  | 0x4 => vx.toNat != word % 0x100
  | 0x5 => word % 0x10 == 0x0 && vx == vy
  | 0x9 => word % 0x10 == 0x0 && vx != vy
  | 0xE => word % 0x100 == 0x9E && m.holds vx || word % 0x100 == 0xA1 && !m.holds vx
  | _ => false

/-- Where the counter goes from a word. -/
def nextCounter (d : Dialect) (m : Machine) (word : Nat) : Int :=
  match word / 0x1000 with
  | 0x0 => if word = 0x00EE then m.stack.entries.getLastD 0 + 2 else m.counter + 2
  | 0x1 | 0x2 => (word % 0x1000 : Nat)
  | 0xB =>
    (word % 0x1000 : Nat) + if d.jumpAddsFirst then (m.reg Instruction.jumpRegister).toNat else 0
  | 0xF => if word % 0x100 = 0x0A ∧ true ∉ m.keypad then m.counter else m.counter + 2
  | _ => m.counter + if m.skipDue word then 4 else 2

section Keys

variable {m : Machine} (hm : m.Shaped)

include hm

theorem Shaped.keyHeld_eq (x : Register) : m.keyHeld x = .ok (m.holds (m.reg x)) := by
  unfold keyHeld holds
  split
  · rename_i hle
    have hsize := hm.keypad
    rw [Array.getElem?_eq_none (by omega)]
    rfl
  · rename_i hlt
    have hk : (m.reg x).toNat < m.keypad.size := by rw [hm.keypad]; omega
    rw [Array.getElem?_eq_getElem hk]
    cases m.keypad[(m.reg x).toNat] <;> rfl

theorem Shaped.skips_ifHeld (x : Register) :
    (Instruction.skipIfHeld x).skips m = m.holds (m.reg x) := by
  simp only [Instruction.skips, hm.keyHeld_eq]
  cases m.holds (m.reg x) <;> rfl

theorem Shaped.skips_unlessHeld (x : Register) :
    (Instruction.skipUnlessHeld x).skips m = !m.holds (m.reg x) := by
  simp only [Instruction.skips, hm.keyHeld_eq]
  cases m.holds (m.reg x) <;> rfl

theorem Shaped.holds_above {key : UInt8} (hkey : 16 ≤ key.toNat) : m.holds key = false := by
  have hsize : m.keypad.size = 16 := hm.keypad
  unfold holds
  rw [Array.getElem?_eq_none (by omega)]
  rfl

end Keys

/-- The digits of the word of an instruction say whether it is a skip that is due. -/
theorem Shaped.skipDue_word {m : Machine} (hm : m.Shaped) (i : Instruction) :
    m.skipDue i.word = i.skips m := by
  cases i with
  | clear | ret => rfl
  | jump | call | setIndex | jumpOffset =>
    simp only [Instruction.word, skipDue, Instruction.skips, digits_wordOfAddress]
  | skipIfByte x k | skipUnlessByte x k =>
    simp only [Instruction.word, skipDue, Instruction.skips, digits_wordOfByte, bne, beq_toNat]
  | skipIfSame x y | skipUnlessSame x y =>
    simp (disch := decide) only [Instruction.word, skipDue, Instruction.skips, digits_wordOfNibbles]
    rfl
  | skipIfHeld x =>
    rw [hm.skips_ifHeld]
    simp only [Instruction.word, skipDue, digits_wordOfByte]
    exact Bool.or_false _
  | skipUnlessHeld x =>
    rw [hm.skips_unlessHeld]
    simp only [Instruction.word, skipDue, digits_wordOfByte]
    rfl
  | setByte | addByte | random | readDelay | waitKey | setDelay | setSound | addIndex | pointGlyph
  | storeDigits | storeRegisters | loadRegisters =>
    simp only [Instruction.word, skipDue, Instruction.skips, digits_wordOfByte]
  | draw x y rows =>
    simp only [Instruction.word, skipDue, Instruction.skips, digits_wordOfNibbles rows.isLt]
  | _ =>
    simp (disch := decide) only [Instruction.word, skipDue, Instruction.skips, digits_wordOfNibbles]

/-- The counter that an instruction leaves is the one that its word leads to. -/
theorem Shaped.nextCounter_word {m : Machine} (hm : m.Shaped) (p : Platform) {i : Instruction}
    (hret : i ≠ .ret) : m.nextCounter p.dialect i.word = i.counterAfter p m := by
  have hskip := hm.skipDue_word i
  cases i with
  | ret => exact absurd rfl hret
  | clear => rfl
  | jump target | call target | jumpOffset target =>
    simp only [Instruction.word, nextCounter, Instruction.counterAfter, digits_wordOfAddress]
  | waitKey x =>
    simp only [Instruction.word, nextCounter, Instruction.counterAfter, digits_wordOfByte,
      isSome_lowestKey?_iff]
    by_cases hkey : true ∈ m.keypad
    · rw [if_pos hkey, if_neg fun h => h.2 hkey]
    · rw [if_neg hkey, if_pos ⟨rfl, hkey⟩]
  | readDelay | setDelay | setSound | addIndex | pointGlyph | storeDigits | storeRegisters
  | loadRegisters =>
    simp only [Instruction.word, nextCounter, Instruction.counterAfter, digits_wordOfByte]
    rfl
  | setIndex target =>
    simp only [Instruction.word] at hskip
    simp only [Instruction.word, nextCounter, Instruction.counterAfter, digits_wordOfAddress, hskip]
  | skipIfByte | skipUnlessByte | skipIfHeld | skipUnlessHeld | setByte | addByte | random =>
    simp only [Instruction.word] at hskip
    simp only [Instruction.word, nextCounter, Instruction.counterAfter, digits_wordOfByte, hskip]
  | draw x y rows =>
    simp only [Instruction.word] at hskip
    simp only [Instruction.word, nextCounter, Instruction.counterAfter,
      digits_wordOfNibbles rows.isLt, hskip]
  | _ =>
    simp only [Instruction.word] at hskip
    simp (disch := decide) only [Instruction.word, nextCounter, Instruction.counterAfter,
      digits_wordOfNibbles, hskip]

end Machine

/-! ## Words that are no instruction -/

section Rebuild

variable {w c : Nat} (h : w / 0x1000 = c)

include h

theorem eq_wordOfAddress : w = wordOfAddress c ⟨w % 0x1000, Nat.mod_lt w (by decide)⟩ := by
  simp only [wordOfAddress]
  omega

theorem eq_wordOfByte {k : UInt8} (hk : w % 0x100 = k.toNat) :
    w = wordOfByte c (registerOf (w / 0x100)) k := by
  simp only [wordOfByte, registerOf]
  omega

theorem eq_wordOfNibbles {n : Nat} (hn : w % 0x10 = n) :
    w = wordOfNibbles c (registerOf (w / 0x100)) (registerOf (w / 0x10)) n := by
  simp only [wordOfNibbles, registerOf]
  omega

end Rebuild

section Unknown

variable {w : Nat} (hnone : ∀ i : Instruction, w ≠ i.word)

include hnone

theorem Machine.skipDue_unknown (m : Machine) : m.skipDue w = false := by
  have hlow : w % 0x100 = (UInt8.ofNat (w % 0x100)).toNat := by
    rw [UInt8.toNat_ofNat']
    omega
  simp only [skipDue]
  split
  case h_1 hc => exact absurd (eq_wordOfByte hc hlow) (hnone (.skipIfByte _ _))
  case h_2 hc => exact absurd (eq_wordOfByte hc hlow) (hnone (.skipUnlessByte _ _))
  case h_3 hc =>
    have hn : w % 0x10 ≠ 0x0 := fun hn => hnone (.skipIfSame _ _) (eq_wordOfNibbles hc hn)
    rw [beq_false_of_ne hn]
    rfl
  case h_4 hc =>
    have hn : w % 0x10 ≠ 0x0 := fun hn => hnone (.skipUnlessSame _ _) (eq_wordOfNibbles hc hn)
    rw [beq_false_of_ne hn]
    rfl
  case h_5 hc =>
    have hheld : w % 0x100 ≠ 0x9E := fun hk => hnone (.skipIfHeld _) (eq_wordOfByte hc hk)
    have hnot : w % 0x100 ≠ 0xA1 := fun hk => hnone (.skipUnlessHeld _) (eq_wordOfByte hc hk)
    rw [beq_false_of_ne hheld, beq_false_of_ne hnot]
    rfl
  case h_6 => rfl

theorem Machine.nextCounter_unknown (m : Machine) (d : Dialect) :
    m.nextCounter d w = m.counter + 2 := by
  unfold nextCounter
  split
  case h_1 => exact if_neg (hnone .ret)
  case h_2 hc => exact absurd (eq_wordOfAddress hc) (hnone (.jump _))
  case h_3 hc => exact absurd (eq_wordOfAddress hc) (hnone (.call _))
  case h_4 hc => exact absurd (eq_wordOfAddress hc) (hnone (.jumpOffset _))
  case h_5 hc => exact if_neg fun h => hnone (.waitKey _) (eq_wordOfByte hc h.1)
  case h_6 =>
    rw [m.skipDue_unknown hnone]
    rfl

end Unknown

/-! ## One step -/

namespace Processor

variable {cpu : Processor} {m : Machine}

theorem step_nextCounter (hm : m.Shaped) (hf : m.counter < m.programEnd) {w : Nat}
    (hw : m.word? = some w) {outcome : Option Bool} (h : (cpu.step m).result = .ok outcome) :
    (cpu.step m).machine.counter = m.nextCounter cpu.platform.dialect w := by
  have hcourse := cpu.step_course m
  generalize cpu.step m = run at h hcourse ⊢
  cases hcourse with
  | finished hfinished =>
    have hend := Machine.isFinished_iff.mp hfinished
    omega
  | outside | dry | stopped => cases h
  | unknown _ hb hi =>
    rw [Machine.word?, if_pos hb, Option.some.injEq] at hw
    subst hw
    have hnone : ∀ i : Instruction, m.word ≠ i.word := by
      intro i hword
      rw [hword, Instruction.ofWord?_word] at hi
      cases hi
    exact (m.nextCounter_unknown hnone _).symm
  | @done _ hb i hi number source hn he =>
    rw [Machine.word?, if_pos hb, Option.some.injEq] at hw
    subst hw
    rw [← (Instruction.ofWord?_eq_some_iff m.word_lt).mp hi]
    refine ((Instruction.effect_footprint cpu.platform number i m).counter he).trans ?_
    by_cases hret : i = .ret
    · subst hret
      have htop : m.stack.entries.getLastD 0 = m.stack.top := by
        rw [hm.stack.entries_pop (Instruction.effect_ret he), List.getLastD_concat]
      exact congrArg (· + 2) htop.symm
    · exact (hm.nextCounter_word cpu.platform hret).symm

/-- Executing the word succeeds, and moves on by two, or by four if it skips. -/
def SkipsIf (cpu : Processor) (m : Machine) (word : Nat) (skip : Bool) : Prop :=
  (cpu.execute word m).result = .ok true ∧
    (cpu.execute word m).machine.counter = m.counter + if skip then 4 else 2

theorem skipsIf_word (hm : m.Shaped) {i : Instruction} (hrandom : i.isRandom = false)
    (hfailure : i.failureOn m = none)
    (hcounter : i.counterAfter cpu.platform m = m.counter + if i.skips m then 4 else 2) :
    cpu.SkipsIf m i.word (i.skips m) := by
  have he : (i.effect cpu.platform 0 m).failure = none :=
    (Instruction.effect_failure hm cpu.platform 0 i).1.trans hfailure
  have hdone := cpu.execute_word hrandom he
  have hfoot := (Instruction.effect_footprint cpu.platform 0 i m).counter he
  unfold SkipsIf
  rw [hdone]
  exact ⟨rfl, hfoot.trans hcounter⟩

end Processor

/-- The law of the counter. On a machine whose parts have their sizes, a step of an unfinished
program that is not stopped takes the counter where the word there leads. The skips on bytes, on
registers and on keys come in pairs, of which exactly one skips whatever the operands are, and a
value above F is that of no key. -/
theorem counter_law {cpu : Processor} {m : Machine} (hm : m.Shaped) :
    (∀ w outcome, m.counter < m.programEnd → m.word? = some w →
      (cpu.step m).result = .ok outcome →
        (cpu.step m).machine.counter = m.nextCounter cpu.platform.dialect w) ∧
    (∀ x k, ∃ skip, cpu.SkipsIf m (wordOfByte 0x3 x k) skip ∧
      cpu.SkipsIf m (wordOfByte 0x4 x k) (!skip)) ∧
    (∀ x y, ∃ skip, cpu.SkipsIf m (wordOfNibbles 0x5 x y 0x0) skip ∧
      cpu.SkipsIf m (wordOfNibbles 0x9 x y 0x0) (!skip)) ∧
    (∀ x, ∃ skip, cpu.SkipsIf m (wordOfByte 0xE x 0x9E) skip ∧
      cpu.SkipsIf m (wordOfByte 0xE x 0xA1) (!skip)) ∧
    (∀ x, 16 ≤ (m.reg x).toNat → cpu.SkipsIf m (wordOfByte 0xE x 0x9E) false ∧
      cpu.SkipsIf m (wordOfByte 0xE x 0xA1) true) := by
  have hheld : ∀ x, cpu.SkipsIf m (wordOfByte 0xE x 0x9E) (m.holds (m.reg x)) := by
    intro x
    rw [← hm.skips_ifHeld x]
    exact Processor.skipsIf_word (i := .skipIfHeld x) hm rfl rfl rfl
  have hnot : ∀ x, cpu.SkipsIf m (wordOfByte 0xE x 0xA1) (!m.holds (m.reg x)) := by
    intro x
    rw [← hm.skips_unlessHeld x]
    exact Processor.skipsIf_word (i := .skipUnlessHeld x) hm rfl rfl rfl
  refine ⟨fun w outcome hf hw h => Processor.step_nextCounter hm hf hw h, ?_, ?_, ?_, ?_⟩
  · intro x k
    have h3 : cpu.SkipsIf m (wordOfByte 0x3 x k) (m.reg x == k) :=
      Processor.skipsIf_word (i := .skipIfByte x k) hm rfl rfl rfl
    have h4 : cpu.SkipsIf m (wordOfByte 0x4 x k) (m.reg x != k) :=
      Processor.skipsIf_word (i := .skipUnlessByte x k) hm rfl rfl rfl
    exact ⟨m.reg x == k, h3, h4⟩
  · intro x y
    have h5 : cpu.SkipsIf m (wordOfNibbles 0x5 x y 0x0) (m.reg x == m.reg y) :=
      Processor.skipsIf_word (i := .skipIfSame x y) hm rfl rfl rfl
    have h9 : cpu.SkipsIf m (wordOfNibbles 0x9 x y 0x0) (m.reg x != m.reg y) :=
      Processor.skipsIf_word (i := .skipUnlessSame x y) hm rfl rfl rfl
    exact ⟨m.reg x == m.reg y, h5, h9⟩
  · intro x
    exact ⟨m.holds (m.reg x), hheld x, hnot x⟩
  · intro x hx
    have hfalse := hm.holds_above hx
    have h9E := hheld x
    have hA1 := hnot x
    rw [hfalse] at h9E hA1
    exact ⟨h9E, hA1⟩

/-- A program that is an indexed jump to 0x300. -/
def indexedProgram : List UInt8 := [0xB3, 0x00]

/-- A machine with the indexed jump, and with a V0 that is the number of no key. -/
def indexedMachine : Machine :=
  (Machine.holding modernProcessor.platform indexedProgram).setReg Instruction.jumpRegister 0x20

attribute [local instance] Capacity.least in
theorem counter_law_indexed :
    (modernProcessor.step indexedMachine).machine.counter = 0x320 ∧
      modernProcessor.SkipsIf indexedMachine 0xE09E false ∧
      modernProcessor.SkipsIf indexedMachine 0xE0A1 true := by
  have hp : modernProcessor.platform.Sized := Platform.sized_of_geometry rfl
  have hlength : indexedProgram.length ≤ maxProgramSize := by decide
  have hm : indexedMachine.Shaped := { (Machine.holding_wellFormedOn hp hlength).toShaped with }
  have hrun : indexedMachine.word? = some 0xB300 ∧
      (modernProcessor.step indexedMachine).result = .ok (some false) := by decide +kernel
  obtain ⟨hcounter, -, -, -, hkeys⟩ := @counter_law modernProcessor indexedMachine hm
  exact ⟨hcounter _ _ (by decide) hrun.1 hrun.2, hkeys 0 (by decide)⟩

end Chip8
