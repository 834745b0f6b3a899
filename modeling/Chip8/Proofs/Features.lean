/-
  Which features bear on which instructions. A feature governs the words of a few instructions.
  All others do the same in every dialect, and even those that are governed do the same where the
  dialects agree (`effect_recast`). The same lemma lets two flags of the machine differ that are no
  part of the game: the way with the edges of the screen, which only a draw asks for, and the wish
  to end the frame, which a step never asks for.
-/
import Chip8.Proofs.Encoding
import Chip8.Proofs.Footprint
import Chip8.Instruction.Mnemonic
namespace Chip8

namespace Feature

/-- The words of the instructions that a feature bears on. -/
def Governs (word : Nat) : Feature → Prop
  | .logicClearsFlag =>
    word / 0x1000 = 0x8 ∧ (word % 0x10 = 0x1 ∨ word % 0x10 = 0x2 ∨ word % 0x10 = 0x3)
  | .transferMovesIndex => word / 0x1000 = 0xF ∧ (word % 0x100 = 0x55 ∨ word % 0x100 = 0x65)
  | .drawEndsFrame | .spritesWrap => word / 0x1000 = 0xD
  | .shiftReadsSecond => word / 0x1000 = 0x8 ∧ (word % 0x10 = 0x6 ∨ word % 0x10 = 0xE)
  | .jumpAddsFirst => word / 0x1000 = 0xB

instance (word : Nat) (f : Feature) : Decidable (f.Governs word) :=
  match f with
  | .logicClearsFlag | .transferMovesIndex | .shiftReadsSecond =>
    inferInstanceAs (Decidable (_ ∧ _))
  | .drawEndsFrame | .spritesWrap | .jumpAddsFirst => inferInstanceAs (Decidable (_ = _))

end Feature

namespace Instruction

/-- The features that bear on an instruction. -/
def features : Instruction → List Feature
  | .orWith .. | .andWith .. | .xorWith .. => [.logicClearsFlag]
  | .storeRegisters _ | .loadRegisters _ => [.transferMovesIndex]
  | .draw .. => [.drawEndsFrame, .spritesWrap]
  | .shiftRight .. | .shiftLeft .. => [.shiftReadsSecond]
  | .jumpOffset _ => [.jumpAddsFirst]
  | _ => []

theorem governs_of_mem_features {i : Instruction} {f : Feature} (h : f ∈ i.features) :
    f.Governs i.word := by
  cases i with
  | orWith x y | andWith x y | xorWith x y | shiftRight x y | shiftLeft x y =>
    have hx : x.val < 16 := x.isLt
    have hy : y.val < 16 := y.isLt
    rw [features, List.mem_singleton] at h
    subst h
    simp only [Feature.Governs, word, wordOfNibbles]
    omega
  | draw x y rows =>
    have hx : x.val < 16 := x.isLt
    have hy : y.val < 16 := y.isLt
    have hn := rows.isLt
    have hword : (Instruction.draw x y rows).word / 0x1000 = 0xD := by
      simp only [word, wordOfNibbles]
      omega
    rcases List.mem_cons.mp h with rfl | h
    · exact hword
    · rw [List.mem_singleton.mp h]
      exact hword
  | storeRegisters x | loadRegisters x =>
    have hx : x.val < 16 := x.isLt
    rw [features, List.mem_singleton] at h
    subst h
    simp only [Feature.Governs, word, wordOfByte, UInt8.reduceToNat]
    omega
  | jumpOffset target =>
    have ht : target.val < 0x1000 := target.isLt
    rw [features, List.mem_singleton] at h
    subst h
    simp only [Feature.Governs, word, wordOfAddress]
    omega
  | _ => cases h

/-- The dialects agree on an instruction, except perhaps on whether it ends the frame. -/
def AgreedBy (d e : Dialect) (i : Instruction) : Prop :=
  ∀ f ∈ i.features, f ≠ .drawEndsFrame → e.get f = d.get f

/-- The instruction ends the frame in a dialect. -/
def endsFrame (d : Dialect) : Instruction → Bool
  | .draw .. => d.drawEndsFrame
  | _ => false

/-- Dialects that agree on an instruction give it the same text. -/
theorem mnemonic_eq {d e : Dialect} {i : Instruction} (h : i.AgreedBy d e) :
    i.mnemonic e = i.mnemonic d := by
  cases i with
  | shiftRight x y | shiftLeft x y =>
    have hshift : e.shiftReadsSecond = d.shiftReadsSecond :=
      h .shiftReadsSecond List.mem_cons_self nofun
    simp only [mnemonic, onShift, hshift]
  | _ => rfl

end Instruction

/-! ## Flags that may differ -/

namespace Machine

/-- The machine with another way with the edges of the screen, and another wish to end the
frame. -/
def recast (m : Machine) (wraps blank : Bool) : Machine :=
  { m with screen := { m.screen with wraps := wraps }, awaitingBlank := blank }

end Machine

theorem Screen.clear_wraps (s : Screen) (wraps : Bool) :
    ({ s with wraps := wraps } : Screen).clear =
      s.clear.map fun t => { t with wraps := wraps } := by
  unfold Screen.clear
  cases s.bank.clear <;> rfl

namespace Instruction

open Machine

/-- On platforms that agree on an instruction it does the same, whatever the wish to end the frame
and, unless it draws, the way with the edges. -/
theorem effect_recast {p q : Platform} (hglyph : q.glyphSize = p.glyphSize) {i : Instruction}
    (hagree : i.AgreedBy p.dialect q.dialect) (number : Int) (m : Machine) {wraps : Bool}
    (hwraps : .spritesWrap ∈ i.features → wraps = m.screen.wraps) (blank : Bool) :
    i.effect q number (m.recast wraps blank) =
      ⟨(i.effect p number m).machine.recast wraps
        ((i.effect p number m).failure.isNone && i.endsFrame q.dialect || blank),
        (i.effect p number m).failure⟩ := by
  cases i with
  | clear =>
    have h : (m.recast wraps blank).screen.clear =
      m.screen.clear.map fun t => { t with wraps := wraps } := m.screen.clear_wraps wraps
    simp only [effect, h]
    cases m.screen.clear <;> rfl
  | ret =>
    have h : (m.recast wraps blank).stack.pop = m.stack.pop := rfl
    simp only [effect, h]
    cases m.stack.pop <;> rfl
  | call target =>
    have h : (m.recast wraps blank).stack.push (m.recast wraps blank).counter =
      m.stack.push m.counter := rfl
    simp only [effect, h]
    cases m.stack.push m.counter <;> rfl
  | skipIfByte | skipUnlessByte | skipIfSame | skipUnlessSame =>
    simp only [effect, skipIf_eq]
    rfl
  | skipIfHeld x | skipUnlessHeld x =>
    have h : (m.recast wraps blank).keyHeld x = m.keyHeld x := rfl
    simp only [effect, skipOnKey, skipIf_eq, h]
    cases m.keyHeld x <;> rfl
  | orWith x y | andWith x y | xorWith x y =>
    have h : q.dialect.logicClearsFlag = p.dialect.logicClearsFlag :=
      hagree .logicClearsFlag List.mem_cons_self (by decide)
    simp only [effect, logic_eq, h]
    rfl
  | shiftRight x y | shiftLeft x y =>
    have h : q.dialect.shiftReadsSecond = p.dialect.shiftReadsSecond :=
      hagree .shiftReadsSecond List.mem_cons_self (by decide)
    simp only [effect, shiftOperand, h]
    rfl
  | jumpOffset target =>
    have h : q.dialect.jumpAddsFirst = p.dialect.jumpAddsFirst :=
      hagree .jumpAddsFirst List.mem_cons_self (by decide)
    simp only [effect, h]
    rfl
  | draw x y rows =>
    -- here the way with the edges is the same, and drawing keeps it
    obtain rfl := hwraps (List.mem_cons_of_mem _ List.mem_cons_self)
    have hscreen : (m.recast m.screen.wraps blank).screen = m.screen := rfl
    have hreg : (m.recast m.screen.wraps blank).reg = m.reg := rfl
    have hpoints : (m.recast m.screen.wraps blank).spritePoints = m.spritePoints := rfl
    simp only [effect, drawSprite, hscreen, hreg, hpoints]
    by_cases hroom : m.screen.width = 0 ∨ m.screen.height = 0
    · rw [if_pos hroom, if_pos hroom]
      rfl
    · rw [if_neg hroom, if_neg hroom]
      generalize hdrawing : m.screen.draw 0 _ = drawing
      have hkept : drawing.screen.wraps = m.screen.wraps := by
        rw [← hdrawing]
        exact congrArg Screen.Frame.wraps (Screen.draw_frame _ _ _)
      cases drawing.failure with
      | some e =>
        simp only [recast, ← hkept]
        rfl
      | none =>
        have hblank := Bool.or_comm q.dialect.drawEndsFrame blank
        simp only [recast, ← hkept, endsFrame, Option.isNone_none, Bool.true_and, hblank]
        rfl
  | readDelay x =>
    have h : (m.recast wraps blank).delay = m.delay := rfl
    simp only [effect, h]
    cases byte? m.delay <;> rfl
  | waitKey x =>
    have h : (m.recast wraps blank).lowestKey? = m.lowestKey? := rfl
    simp only [effect, takeKey, h]
    cases m.lowestKey? with
    | none => rfl
    | some key =>
      dsimp only
      cases byte? key <;> rfl
  | storeRegisters x =>
    have h : q.dialect.transferMovesIndex = p.dialect.transferMovesIndex :=
      hagree .transferMovesIndex List.mem_cons_self (by decide)
    simp only [effect, storeBlock_eq, moveIndex_eq, h]
    rfl
  | loadRegisters x =>
    have h : q.dialect.transferMovesIndex = p.dialect.transferMovesIndex :=
      hagree .transferMovesIndex List.mem_cons_self (by decide)
    simp only [effect, moveIndex_eq, h]
    rfl
  | pointGlyph x =>
    simp only [effect, hglyph]
    rfl
  | _ => rfl

/-- Only a draw that succeeds wishes the frame to end. -/
theorem effect_awaitingBlank (p : Platform) (number : Int) (i : Instruction) (m : Machine) :
    (i.effect p number m).machine.awaitingBlank =
      ((i.effect p number m).failure.isNone && i.endsFrame p.dialect || m.awaitingBlank) := by
  have hwraps : .spritesWrap ∈ i.features → m.screen.wraps = m.screen.wraps := fun _ => rfl
  have heffect := effect_recast (q := p) rfl (fun _ _ _ => rfl) number m hwraps m.awaitingBlank
  exact congrArg (fun o => o.machine.awaitingBlank) heffect

end Instruction

end Chip8
