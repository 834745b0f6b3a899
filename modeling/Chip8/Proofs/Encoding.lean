/-
  Encoding: the word of each instruction, put together from nibbles, bytes and addresses. Decoding
  is exact: a word of sixteen bits stands for an instruction if and only if it is the word of that
  instruction, so every instruction has one word, and no two share one.
-/
import Chip8.Instruction
namespace Chip8

/-! ## Words put together -/

/-- The word of four nibbles. -/
def wordOfNibbles (c : Nat) (x y : Register) (n : Nat) : Nat :=
  0x1000 * c + 0x100 * x.val + 0x10 * y.val + n

/-- The word of two nibbles and a byte. -/
def wordOfByte (c : Nat) (x : Register) (k : UInt8) : Nat := 0x1000 * c + 0x100 * x.val + k.toNat

/-- The word of a nibble and an address. -/
def wordOfAddress (c : Nat) (a : Address) : Nat := 0x1000 * c + a.val

namespace Operands

/-- The parts of a word of sixteen bits, as numbers. -/
theorem ofWord_val {w : Nat} (hw : w < 0x10000) :
    (ofWord w).c.val = w / 0x1000 ∧ (ofWord w).x.val = w / 0x100 % 16 ∧
      (ofWord w).y.val = w / 0x10 % 16 ∧ (ofWord w).n.val = w % 16 ∧
      (ofWord w).byte.toNat = w % 256 ∧ (ofWord w).address.val = w % 0x1000 := by
  simp only [ofWord, nibble, Address.ofInt, memorySize, UInt8.toNat_ofNat']
  omega

theorem ofWord_nibbles {c n : Nat} (hc : c < 16) (hn : n < 16) (x y : Register) :
    (ofWord (wordOfNibbles c x y n)).c.val = c ∧ (ofWord (wordOfNibbles c x y n)).x = x ∧
      (ofWord (wordOfNibbles c x y n)).y = y ∧ (ofWord (wordOfNibbles c x y n)).n.val = n := by
  have hx : x.val < 16 := x.isLt
  have hy : y.val < 16 := y.isLt
  have hw : wordOfNibbles c x y n < 0x10000 := by unfold wordOfNibbles; omega
  obtain ⟨h1, h2, h3, h4, -, -⟩ := ofWord_val hw
  unfold wordOfNibbles at h1 h2 h3 h4 ⊢
  exact ⟨by omega, Fin.ext (by omega), Fin.ext (by omega), by omega⟩

theorem ofWord_byte {c : Nat} (hc : c < 16) (x : Register) (k : UInt8) :
    (ofWord (wordOfByte c x k)).c.val = c ∧ (ofWord (wordOfByte c x k)).x = x ∧
      (ofWord (wordOfByte c x k)).byte = k := by
  have hx : x.val < 16 := x.isLt
  have hk := k.toNat_lt
  have hw : wordOfByte c x k < 0x10000 := by unfold wordOfByte; omega
  obtain ⟨h1, h2, -, -, h5, -⟩ := ofWord_val hw
  unfold wordOfByte at h1 h2 h5 ⊢
  exact ⟨by omega, Fin.ext (by omega), UInt8.toNat_inj.mp (by omega)⟩

theorem ofWord_address {c : Nat} (hc : c < 16) (a : Address) :
    (ofWord (wordOfAddress c a)).c.val = c ∧ (ofWord (wordOfAddress c a)).address = a := by
  have ha : a.val < 0x1000 := a.isLt
  have hw : wordOfAddress c a < 0x10000 := by unfold wordOfAddress; omega
  obtain ⟨h1, -, -, -, -, h6⟩ := ofWord_val hw
  unfold wordOfAddress at h1 h6 ⊢
  exact ⟨by omega, Fin.ext (by omega)⟩

/-- A word put together from its own parts. -/
theorem word_ofWord {w : Nat} (hw : w < 0x10000) :
    wordOfNibbles (ofWord w).c.val (ofWord w).x (ofWord w).y (ofWord w).n.val = w ∧
      wordOfByte (ofWord w).c.val (ofWord w).x (ofWord w).byte = w ∧
      wordOfAddress (ofWord w).c.val (ofWord w).address = w := by
  obtain ⟨h1, h2, h3, h4, h5, h6⟩ := ofWord_val hw
  unfold wordOfNibbles wordOfByte wordOfAddress
  omega

end Operands

theorem family_nibbles {n : Nat} (hn : n < 16) (c : Nat) (x y : Register) :
    (wordOfNibbles c x y n : Int) / 0x1000 = c := by
  have hx : x.val < 16 := x.isLt
  have hy : y.val < 16 := y.isLt
  unfold wordOfNibbles
  omega

theorem family_byte (c : Nat) (x : Register) (k : UInt8) :
    (wordOfByte c x k : Int) / 0x1000 = c := by
  have hx : x.val < 16 := x.isLt
  have hk := k.toNat_lt
  unfold wordOfByte
  omega

namespace Instruction

/-! ## The word of an instruction -/

/-- The word of an instruction. -/
def word : Instruction → Nat
  | .clear => 0x00E0
  | .ret => 0x00EE
  | .jump target => wordOfAddress 0x1 target
  | .call target => wordOfAddress 0x2 target
  | .skipIfByte x k => wordOfByte 0x3 x k
  | .skipUnlessByte x k => wordOfByte 0x4 x k
  | .skipIfSame x y => wordOfNibbles 0x5 x y 0x0
  | .setByte x k => wordOfByte 0x6 x k
  | .addByte x k => wordOfByte 0x7 x k
  | .copy x y => wordOfNibbles 0x8 x y 0x0
  | .orWith x y => wordOfNibbles 0x8 x y 0x1
  | .andWith x y => wordOfNibbles 0x8 x y 0x2
  | .xorWith x y => wordOfNibbles 0x8 x y 0x3
  | .add x y => wordOfNibbles 0x8 x y 0x4
  | .subtract x y => wordOfNibbles 0x8 x y 0x5
  | .shiftRight x y => wordOfNibbles 0x8 x y 0x6
  | .subtractFrom x y => wordOfNibbles 0x8 x y 0x7
  | .shiftLeft x y => wordOfNibbles 0x8 x y 0xE
  | .skipUnlessSame x y => wordOfNibbles 0x9 x y 0x0
  | .setIndex target => wordOfAddress 0xA target
  | .jumpOffset target => wordOfAddress 0xB target
  | .random x mask => wordOfByte 0xC x mask
  | .draw x y rows => wordOfNibbles 0xD x y rows.val
  | .skipIfHeld x => wordOfByte 0xE x 0x9E
  | .skipUnlessHeld x => wordOfByte 0xE x 0xA1
  | .readDelay x => wordOfByte 0xF x 0x07
  | .waitKey x => wordOfByte 0xF x 0x0A
  | .setDelay x => wordOfByte 0xF x 0x15
  | .setSound x => wordOfByte 0xF x 0x18
  | .addIndex x => wordOfByte 0xF x 0x1E
  | .pointGlyph x => wordOfByte 0xF x 0x29
  | .storeDigits x => wordOfByte 0xF x 0x33
  | .storeRegisters x => wordOfByte 0xF x 0x55
  | .loadRegisters x => wordOfByte 0xF x 0x65

theorem ofWord?_word (i : Instruction) : ofWord? i.word = some i := by
  cases i with
  | clear | ret => rfl
  | jump target | call target | setIndex target | jumpOffset target =>
    simp (disch := decide) [word, ofWord?, Operands.ofWord_address]
  | skipIfByte x k | skipUnlessByte x k | setByte x k | addByte x k | random x k =>
    simp (disch := decide) [word, ofWord?, Operands.ofWord_byte]
  | draw x y rows =>
    have h := Operands.ofWord_nibbles (by decide : 0xD < 16) rows.isLt x y
    simp only [word, ofWord?, h.1, h.2.1, h.2.2.1, Option.some.injEq, draw.injEq, true_and]
    exact Fin.ext h.2.2.2
  | skipIfHeld x | skipUnlessHeld x | readDelay x | waitKey x | setDelay x | setSound x
  | addIndex x | pointGlyph x | storeDigits x | storeRegisters x | loadRegisters x =>
    simp (disch := decide) [word, ofWord?, Operands.ofWord_byte, family_byte, Selector.ofFamily,
      Selector.value]
  | _ x y =>
    simp (disch := decide) [word, ofWord?, Operands.ofWord_nibbles, family_nibbles,
      Selector.ofFamily, Selector.value]

theorem word_of_ofWord? {w : Nat} (hw : w < 0x10000) {i : Instruction}
    (h : ofWord? w = some i) : i.word = w := by
  obtain ⟨hnibbles, hbyte, haddress⟩ := Operands.word_ofWord hw
  have hfamily : (w : Int) / 0x1000 = (Operands.ofWord w).c.val := by
    rw [(Operands.ofWord_val hw).1]
    rfl
  simp only [ofWord?, hfamily] at h
  split at h
  case h_35 => cases h
  -- the first nibble decides alone
  case h_3 hc | h_4 hc | h_20 hc | h_21 hc =>
    cases h
    rw [hc] at haddress
    exact haddress
  case h_5 hc | h_6 hc | h_8 hc | h_9 hc | h_22 hc =>
    cases h
    rw [hc] at hbyte
    exact hbyte
  case h_23 hc =>
    cases h
    rw [hc] at hnibbles
    exact hnibbles
  -- the low twelve bits, the last nibble or the last byte decide too
  case h_1 hc hvalue | h_2 hc hvalue =>
    cases h
    rw [hc] at haddress hvalue
    have ha : (Operands.ofWord w).address.val = _ := hvalue
    rw [wordOfAddress, ha] at haddress
    exact haddress
  case h_7 hc hvalue | h_10 hc hvalue | h_11 hc hvalue | h_12 hc hvalue | h_13 hc hvalue
  | h_14 hc hvalue | h_15 hc hvalue | h_16 hc hvalue | h_17 hc hvalue | h_18 hc hvalue
  | h_19 hc hvalue =>
    cases h
    rw [hc] at hnibbles hvalue
    have hn : (Operands.ofWord w).n.val = _ := hvalue
    rw [hn] at hnibbles
    exact hnibbles
  all_goals
    rename_i hc hvalue
    cases h
    rw [hc] at hbyte hvalue
    have hk : (Operands.ofWord w).byte.toNat = _ := hvalue
    rw [wordOfByte, hk] at hbyte
    exact hbyte

/-- No two instructions share a word. -/
theorem word_injective {i j : Instruction} (h : i.word = j.word) : i = j := by
  have hword := ofWord?_word i
  rw [h, ofWord?_word] at hword
  exact (Option.some.inj hword).symm

/-- A word of sixteen bits stands for an instruction exactly if it is the word of it. -/
theorem ofWord?_eq_some_iff {w : Nat} (hw : w < 0x10000) {i : Instruction} :
    ofWord? w = some i ↔ i.word = w := by
  constructor
  · exact word_of_ofWord? hw
  · rintro rfl
    exact ofWord?_word i

end Instruction

end Chip8
