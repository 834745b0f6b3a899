/-
  The assembly text of an instruction. A shift names its second register only in a dialect that
  reads it.
-/
import Chip8.Dialect
import Chip8.Instruction
import Chip8.Text.Hex
namespace Chip8.Instruction

open Text

/-- The text of a register. -/
def registerText (x : Register) : String := "V" ++ Hex.text 1 x.val

/-- The text of an address. -/
def addressText (a : Address) : String := "0x" ++ Hex.text 3 a.val

/-- The text of a byte. -/
def byteText (k : UInt8) : String := "0x" ++ Hex.text 2 k.toNat

/-- A name and its operands. -/
def assembly (name : String) (operands : List String) : String :=
  match operands with
  | [] => name
  | _ => name ++ " " ++ ", ".intercalate operands

/-- A name and two registers. -/
def onRegisters (name : String) (x y : Register) : String :=
  assembly name [registerText x, registerText y]

/-- A name, a register and a byte. -/
def onByte (name : String) (x : Register) (k : UInt8) : String :=
  assembly name [registerText x, byteText k]

/-- A name and the registers of a shift. -/
def onShift (d : Dialect) (name : String) (x y : Register) : String :=
  if d.shiftReadsSecond then onRegisters name x y else assembly name [registerText x]

/-- The assembly text of an instruction. -/
def mnemonic (d : Dialect) : Instruction → String
  | .clear => "CLS"
  | .ret => "RET"
  | .jump a => assembly "JP" [addressText a]
  | .call a => assembly "CALL" [addressText a]
  | .skipIfByte x k => onByte "SE" x k
  | .skipUnlessByte x k => onByte "SNE" x k
  | .skipIfSame x y => onRegisters "SE" x y
  | .setByte x k => onByte "LD" x k
  | .addByte x k => onByte "ADD" x k
  | .copy x y => onRegisters "LD" x y
  | .orWith x y => onRegisters "OR" x y
  | .andWith x y => onRegisters "AND" x y
  | .xorWith x y => onRegisters "XOR" x y
  | .add x y => onRegisters "ADD" x y
  | .subtract x y => onRegisters "SUB" x y
  | .shiftRight x y => onShift d "SHR" x y
  | .subtractFrom x y => onRegisters "SUBN" x y
  | .shiftLeft x y => onShift d "SHL" x y
  | .skipUnlessSame x y => onRegisters "SNE" x y
  | .setIndex a => assembly "LD" ["I", addressText a]
  | .jumpOffset a => assembly "JP" ["V0", addressText a]
  | .random x k => onByte "RND" x k
  | .draw x y n => assembly "DRW" [registerText x, registerText y, "0x" ++ Hex.text 1 n.val]
  | .skipIfHeld x => assembly "SKP" [registerText x]
  | .skipUnlessHeld x => assembly "SKNP" [registerText x]
  | .readDelay x => assembly "LD" [registerText x, "DT"]
  | .waitKey x => assembly "LD" [registerText x, "K"]
  | .setDelay x => assembly "LD" ["DT", registerText x]
  | .setSound x => assembly "LD" ["ST", registerText x]
  | .addIndex x => assembly "ADD" ["I", registerText x]
  | .pointGlyph x => assembly "LD" ["F", registerText x]
  | .storeDigits x => assembly "LD" ["B", registerText x]
  | .storeRegisters x => assembly "LD" ["[I]", registerText x]
  | .loadRegisters x => assembly "LD" [registerText x, "[I]"]

end Chip8.Instruction
