/-
  The arithmetic of two registers, told by numbers: what the first register receives and which flag
  VF receives, from the values that the two registers had before. Sums, differences and shifts are
  cut to a byte. An operation writes its result first and its flag last, so that the flag stays
  when the first register is VF, and it reads both operands before it writes
  (`Instruction.effect_registerOp`). Hence no two of the three registers need to differ for its law
  (`arithmetic_law`).
-/
import Chip8.Proofs.Atomicity
namespace Chip8

/-- An operation on two registers. -/
inductive RegisterOp where
  | copy
  | orWith
  | andWith
  | xorWith
  | add
  | subtract
  | shiftRight
  | subtractFrom
  | shiftLeft
  deriving DecidableEq

namespace RegisterOp

/-- The last digit of the words of an operation. -/
def digit : RegisterOp → Nat
  | .copy => 0x0
  | .orWith => 0x1
  | .andWith => 0x2
  | .xorWith => 0x3
  | .add => 0x4
  | .subtract => 0x5
  | .shiftRight => 0x6
  | .subtractFrom => 0x7
  | .shiftLeft => 0xE

/-- The instruction that is an operation on two registers. -/
def instruction (x y : Register) : RegisterOp → Instruction
  | .copy => .copy x y
  | .orWith => .orWith x y
  | .andWith => .andWith x y
  | .xorWith => .xorWith x y
  | .add => .add x y
  | .subtract => .subtract x y
  | .shiftRight => .shiftRight x y
  | .subtractFrom => .subtractFrom x y
  | .shiftLeft => .shiftLeft x y

theorem word_instruction (op : RegisterOp) (x y : Register) :
    (op.instruction x y).word = wordOfNibbles 0x8 x y op.digit := by
  cases op <;> rfl

theorem isRandom_instruction (op : RegisterOp) (x y : Register) :
    (op.instruction x y).isRandom = false := by
  cases op <;> rfl

/-- The value that a shift starts from. -/
def shifted (d : Dialect) (vx vy : Nat) : Nat := if d.shiftReadsSecond then vy else vx

/-- The value that the first register receives, from the values of both before. -/
def result (d : Dialect) (vx vy : Nat) : RegisterOp → Int
  | .copy => vy
  | .orWith => (vx ||| vy : Nat)
  | .andWith => (vx &&& vy : Nat)
  | .xorWith => (vx ^^^ vy : Nat)
  | .add => (vx + vy) % 256
  | .subtract => (vx - vy) % 256
  | .shiftRight => shifted d vx vy / 2
  | .subtractFrom => (vy - vx) % 256
  | .shiftLeft => 2 * shifted d vx vy % 256

/-- The flag that VF receives afterwards, if it receives one: a carry, the lack of a borrow, the
bit that fell out, or a reset. -/
def flag? (d : Dialect) (vx vy : Nat) : RegisterOp → Option Int
  | .copy => none
  | .orWith | .andWith | .xorWith => if d.logicClearsFlag then some 0 else none
  | .add => some (if 255 < vx + vy then 1 else 0)
  | .subtract => some (if vy < vx then 1 else 0)
  | .shiftRight => some (shifted d vx vy % 2)
  | .subtractFrom => some (if vx < vy then 1 else 0)
  | .shiftLeft => some (shifted d vx vy / 128)

/-- The value that a register has after an operation on two registers. A flag wins over the result
where both go to VF. -/
def valueAfter (d : Dialect) (m : Machine) (op : RegisterOp) (x y z : Register) : Int :=
  let vx := (m.reg x).toNat
  let vy := (m.reg y).toNat
  (if z = flagRegister then op.flag? d vx vy else none).getD
    (if z = x then op.result d vx vy else (m.reg z).toNat)

end RegisterOp

namespace Machine

/-- The machine after a byte was put into Vx, and then perhaps another into VF. -/
def receive (m : Machine) (x : Register) (b : UInt8) : Option UInt8 → Machine
  | none => (m.setReg x b).advance
  | some f => ((m.setReg x b).setFlag f).advance

theorem reg_receive (m : Machine) (x z : Register) (b : UInt8) (f? : Option UInt8) :
    (m.receive x b f?).reg z =
      ((if z = flagRegister then f? else none).getD (if z = x then b else m.reg z)) := by
  have hset : (m.setReg x b).reg z = if z = x then b else m.reg z := by
    by_cases hx : z = x
    · rw [if_pos hx, hx, reg_setReg_self]
    · rw [if_neg hx, reg_setReg_ne m hx]
  cases f? with
  | none =>
    rw [ite_self]
    exact hset
  | some f =>
    by_cases hf : z = flagRegister
    · rw [if_pos hf, hf]
      exact reg_setReg_self _ flagRegister f
    · rw [if_neg hf]
      exact (reg_setReg_ne _ hf f).trans hset

/-- A bit as a byte has the value of the bit. -/
theorem toNat_flag (b : Bool) :
    ((if b then 1 else 0 : UInt8).toNat : Int) = if b then 1 else 0 := by
  cases b <;> rfl

theorem logic_eq_receive (d : Dialect) (m : Machine) (x : Register) (b : UInt8) :
    m.logic d x b = m.receive x b (if d.logicClearsFlag then some 0 else none) := by
  unfold logic
  cases d.logicClearsFlag <;> rfl

theorem shiftOperand_toNat (d : Dialect) (m : Machine) (x y : Register) :
    (m.shiftOperand d x y).toNat = RegisterOp.shifted d (m.reg x).toNat (m.reg y).toNat := by
  unfold shiftOperand RegisterOp.shifted
  cases d.shiftReadsSecond <;> rfl

end Machine

namespace Instruction

open Machine

/-- An operation puts its result into Vx and then its flag into VF. Both come from the values that
the registers had before. -/
theorem effect_registerOp (p : Platform) (number : Int) (op : RegisterOp)
    (x y : Register) (m : Machine) :
    ∃ (b : UInt8) (f? : Option UInt8),
      (op.instruction x y).effect p number m = ⟨m.receive x b f?, none⟩ ∧
      (b.toNat : Int) = op.result p.dialect (m.reg x).toNat (m.reg y).toNat ∧
      f?.map (fun f => (f.toNat : Int)) =
        op.flag? p.dialect (m.reg x).toNat (m.reg y).toNat := by
  have hx := (m.reg x).toNat_lt
  have hy := (m.reg y).toNat_lt
  have hs := (m.shiftOperand p.dialect x y).toNat_lt
  have hshift := m.shiftOperand_toNat p.dialect x y
  have hreset : (if p.dialect.logicClearsFlag then some (0 : UInt8) else none).map
      (fun f => (f.toNat : Int)) = if p.dialect.logicClearsFlag then some 0 else none := by
    cases p.dialect.logicClearsFlag <;> rfl
  have hlogic : ∀ b, (⟨m.logic p.dialect x b, none⟩ : Outcome) =
      ⟨m.receive x b (if p.dialect.logicClearsFlag then some 0 else none), none⟩ := by
    intro b
    rw [logic_eq_receive]
  cases op with
  | copy => exact ⟨m.reg y, none, rfl, rfl, rfl⟩
  | orWith =>
    refine ⟨m.reg x ||| m.reg y, _, hlogic _, ?_, hreset⟩
    rw [UInt8.toNat_or]
    rfl
  | andWith =>
    refine ⟨m.reg x &&& m.reg y, _, hlogic _, ?_, hreset⟩
    rw [UInt8.toNat_and]
    rfl
  | xorWith =>
    refine ⟨m.reg x ^^^ m.reg y, _, hlogic _, ?_, hreset⟩
    rw [UInt8.toNat_xor]
    rfl
  | add =>
    refine ⟨m.reg x + m.reg y, some _, rfl, ?_, congrArg some ((toNat_flag _).trans ?_)⟩
    · rw [UInt8.toNat_add, RegisterOp.result]
      omega
    · simp only [decide_eq_true_eq]
  | subtract =>
    refine ⟨m.reg x - m.reg y, some _, rfl, ?_, congrArg some ((toNat_flag _).trans ?_)⟩
    · rw [UInt8.toNat_sub, RegisterOp.result]
      omega
    · simp only [decide_eq_true_eq, UInt8.lt_iff_toNat_lt]
  | subtractFrom =>
    refine ⟨m.reg y - m.reg x, some _, rfl, ?_, congrArg some ((toNat_flag _).trans ?_)⟩
    · rw [UInt8.toNat_sub, RegisterOp.result]
      omega
    · simp only [decide_eq_true_eq, UInt8.lt_iff_toNat_lt]
  | shiftRight =>
    refine ⟨m.shiftOperand p.dialect x y >>> 1, some _, rfl, ?_,
      congrArg some ((toNat_flag _).trans ?_)⟩
    · rw [UInt8.toNat_shiftRight, RegisterOp.result, ← hshift]
      rfl
    · simp only [Nat.testBit_zero, decide_eq_true_eq, ← hshift]
      split <;> omega
  | shiftLeft =>
    refine ⟨m.shiftOperand p.dialect x y <<< 1, some _, rfl, ?_,
      congrArg some ((toNat_flag _).trans ?_)⟩
    · have hdouble : (m.shiftOperand p.dialect x y).toNat <<< ((1 : UInt8).toNat % 8) =
          2 * (m.shiftOperand p.dialect x y).toNat := by
        rw [Nat.shiftLeft_eq, Nat.mul_comm]
        rfl
      rw [UInt8.toNat_shiftLeft, RegisterOp.result, ← hshift, hdouble]
      omega
    · simp only [Nat.testBit_eq_decide_div_mod_eq, decide_eq_true_eq, ← hshift]
      split <;> omega

end Instruction

/-- The law of the operations on two registers, on every machine and in every dialect. The word of
an operation is executed; each register then has the value that the law gives it from the values
of the registers before, also when the operands are one register or VF is one of them; and nothing
else changes, but that the counter moves on. -/
theorem arithmetic_law (cpu : Processor) (m : Machine) (op : RegisterOp) (x y : Register) :
    (cpu.execute (wordOfNibbles 0x8 x y op.digit) m).result = .ok true ∧
    (∀ z, (((cpu.execute (wordOfNibbles 0x8 x y op.digit) m).machine.reg z).toNat : Int) =
      op.valueAfter cpu.platform.dialect m x y z) ∧
    ∃ registers, (cpu.execute (wordOfNibbles 0x8 x y op.digit) m).machine =
      { m with registers := registers, counter := m.counter + 2 } := by
  obtain ⟨b, f?, heffect, hresult, hflag⟩ :=
    Instruction.effect_registerOp cpu.platform 0 op x y m
  have hdone := Processor.execute_word cpu (op.isRandom_instruction x y)
    (congrArg Outcome.failure heffect)
  rw [heffect, op.word_instruction x y] at hdone
  rw [hdone]
  refine ⟨rfl, ?_, ?_⟩
  · intro z
    have hvalue : ((if z = x then b else m.reg z).toNat : Int) =
        if z = x then (b.toNat : Int) else (m.reg z).toNat := by
      split <;> rfl
    rw [Machine.reg_receive, RegisterOp.valueAfter, ← hflag, ← hresult]
    by_cases hz : z = flagRegister
    · rw [if_pos hz, if_pos hz]
      cases f? with
      | some f => rfl
      | none => exact hvalue
    · rw [if_neg hz, if_neg hz]
      exact hvalue
  · cases f? with
    | none => exact ⟨_, rfl⟩
    | some f => exact ⟨_, rfl⟩

end Chip8
