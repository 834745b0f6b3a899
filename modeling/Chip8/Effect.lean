/-
  What each instruction does to the machine. Unless it says otherwise an instruction moves the
  counter on by two. Memory is reached through I, of which the low twelve bits count.
-/
import Chip8.Instruction
import Chip8.Machine
namespace Chip8

/-- The machine that an instruction leaves, and what stopped it before its end. -/
structure Outcome where
  machine : Machine
  failure : Option Failure := none
  deriving DecidableEq

namespace Machine

/-! ## Arithmetic -/

/-- The machine after a logical operation has put a value into Vx. -/
def logic (d : Dialect) (m : Machine) (x : Register) (b : UInt8) : Machine :=
  let m := m.setReg x b
  (if d.logicClearsFlag then m.setFlag 0 else m).advance

/-- The machine after an operation has put a value into Vx and then a flag into VF. -/
def arithmetic (m : Machine) (x : Register) (b : UInt8) (flag : Bool) : Machine :=
  ((m.setReg x b).setFlag (if flag then 1 else 0)).advance

/-- The operand of a shift. -/
def shiftOperand (d : Dialect) (m : Machine) (x y : Register) : UInt8 :=
  m.reg (if d.shiftReadsSecond then y else x)

/-! ## Sprites -/

/-- The columns of a sprite row whose bits are set; bit 7 is column 0. -/
def spriteColumns (row : UInt8) : List Nat :=
  (List.range 8).filter fun column => row.toNat.testBit (7 - column)

/-- The points of a sprite of some rows at I, placed with its corner at a column and a row. -/
def spritePoints (m : Machine) (x y : Int) (rows : Nat) : List (Int × Int) :=
  (List.range rows).flatMap fun (dy : Nat) =>
    (spriteColumns (m.byteAt (m.index + dy))).map fun (dx : Nat) => (x + dx, y + dy)

/-- The machine after drawing a sprite, whose corner always wraps around. -/
def drawSprite (d : Dialect) (m : Machine) (x y : Register) (rows : Nat) : Outcome :=
  let width := m.screen.width
  let height := m.screen.height
  if width = 0 ∨ height = 0 then ⟨m, some (.misuse .divisionByZero)⟩
  else
    let points := m.spritePoints (((m.reg x).toNat : Int).fmod width)
      (((m.reg y).toNat : Int).fmod height) rows
    let drawing := m.screen.draw 0 points
    let m := { m.setFlag drawing.collision with screen := drawing.screen }
    match drawing.failure with
    | some e => ⟨m, some e⟩
    | none => ⟨{ m.advance with awaitingBlank := m.awaitingBlank || d.drawEndsFrame }, none⟩

/-! ## Blocks of memory -/

/-- The machine with V0 to V(count-1) stored at I. -/
def storeBlock (m : Machine) (count : Nat) : Machine :=
  (List.range count).foldl
    (fun n (k : Nat) => n.setByteAt (m.index + k) (m.registers.toList.getD k 0)) m

/-- The machine with V0 to V(count-1) loaded from I. -/
def loadBlock (m : Machine) (count : Nat) : Machine :=
  { m with registers := Vector.ofFn fun k =>
      if k.val < count then m.byteAt (m.index + k.val) else m.registers[k] }

/-- The machine with I past the last register of a block, in a dialect that moves it. -/
def moveIndex (d : Dialect) (m : Machine) (count : Nat) : Machine :=
  if d.transferMovesIndex then { m with index := (m.index + count) % 0x10000 } else m

/-- The machine with the decimal digits of a byte stored at I, hundreds first. -/
def storeDecimal (m : Machine) (b : UInt8) : Machine :=
  ((m.setByteAt m.index (b / 100)).setByteAt (m.index + 1) (b / 10 % 10)).setByteAt
    (m.index + 2) (b % 10)

end Machine

namespace Machine

/-! ## Keys -/

/-- The machine after an instruction that skips the next one if the key in Vx is held, or if it is
not. -/
def skipOnKey (m : Machine) (x : Register) (held : Bool) : Outcome :=
  match m.keyHeld x with
  | .ok now => ⟨m.skipIf (now == held), none⟩
  | .error e => ⟨m, some e⟩

/-- The machine after looking for the lowest key that is held, which is put into Vx. With no key
held it stays at the instruction. -/
def takeKey (m : Machine) (x : Register) : Outcome :=
  match m.lowestKey? with
  | none => ⟨m, none⟩
  | some key =>
    match byte? key with
    | some b => ⟨(m.setReg x b).advance, none⟩
    | none => ⟨m, some (.misuse .valueOutOfRange)⟩

end Machine

namespace Instruction

/-- The instruction takes a number from the random source. -/
def isRandom : Instruction → Bool
  | .random .. => true
  | _ => false

/-- What an instruction does on a platform. The number is the next one of the random source. -/
def effect (p : Platform) (number : Int) (i : Instruction) (m : Machine) : Outcome :=
  match i with
  | .clear =>
    match m.screen.clear with
    | .ok screen => ⟨{ m with screen := screen }.advance, none⟩
    | .error e => ⟨m, some e⟩
  | .ret =>
    match m.stack.pop with
    | .ok (caller, stack) => ⟨{ m with stack := stack, counter := caller + 2 }, none⟩
    | .error e => ⟨m, some e⟩
  | .jump target => ⟨{ m with counter := target.val }, none⟩
  | .call target =>
    match m.stack.push m.counter with
    | .ok stack => ⟨{ m with stack := stack, counter := target.val }, none⟩
    | .error e => ⟨m, some e⟩
  | .skipIfByte x k => ⟨m.skipIf (m.reg x == k), none⟩
  | .skipUnlessByte x k => ⟨m.skipIf (m.reg x != k), none⟩
  | .skipIfSame x y => ⟨m.skipIf (m.reg x == m.reg y), none⟩
  | .setByte x k => ⟨(m.setReg x k).advance, none⟩
  | .addByte x k => ⟨(m.setReg x (m.reg x + k)).advance, none⟩
  | .copy x y => ⟨(m.setReg x (m.reg y)).advance, none⟩
  | .orWith x y => ⟨m.logic p.dialect x (m.reg x ||| m.reg y), none⟩
  | .andWith x y => ⟨m.logic p.dialect x (m.reg x &&& m.reg y), none⟩
  | .xorWith x y => ⟨m.logic p.dialect x (m.reg x ^^^ m.reg y), none⟩
  | .add x y =>
    ⟨m.arithmetic x (m.reg x + m.reg y) (255 < (m.reg x).toNat + (m.reg y).toNat), none⟩
  | .subtract x y => ⟨m.arithmetic x (m.reg x - m.reg y) (m.reg y < m.reg x), none⟩
  | .shiftRight x y =>
    let b := m.shiftOperand p.dialect x y
    ⟨m.arithmetic x (b >>> 1) (b.toNat.testBit 0), none⟩
  | .subtractFrom x y => ⟨m.arithmetic x (m.reg y - m.reg x) (m.reg x < m.reg y), none⟩
  | .shiftLeft x y =>
    let b := m.shiftOperand p.dialect x y
    ⟨m.arithmetic x (b <<< 1) (b.toNat.testBit 7), none⟩
  | .skipUnlessSame x y => ⟨m.skipIf (m.reg x != m.reg y), none⟩
  | .setIndex target => ⟨{ m with index := target.val }.advance, none⟩
  | .jumpOffset target =>
    let offset := if p.dialect.jumpAddsFirst then (m.reg 0).toNat else 0
    ⟨{ m with counter := target.val + offset }, none⟩
  | .random x mask =>
    ⟨(m.setReg x (UInt8.ofNat (number % 256).toNat &&& mask)).advance, none⟩
  | .draw x y rows => m.drawSprite p.dialect x y rows
  | .skipIfHeld x => m.skipOnKey x true
  | .skipUnlessHeld x => m.skipOnKey x false
  | .readDelay x =>
    match byte? m.delay with
    | some b => ⟨(m.setReg x b).advance, none⟩
    | none => ⟨m, some (.misuse .valueOutOfRange)⟩
  | .waitKey x => m.takeKey x
  | .setDelay x => ⟨{ m with delay := (m.reg x).toNat }.advance, none⟩
  | .setSound x => ⟨{ m with sound := (m.reg x).toNat }.advance, none⟩
  | .addIndex x => ⟨{ m with index := (m.index + (m.reg x).toNat) % 0x10000 }.advance, none⟩
  | .pointGlyph x =>
    ⟨{ m with index := fontLocation + p.glyphSize * (m.reg x).toNat }.advance, none⟩
  | .storeDigits x => ⟨(m.storeDecimal (m.reg x)).advance, none⟩
  | .storeRegisters x =>
    ⟨((m.storeBlock (x.val + 1)).moveIndex p.dialect (x.val + 1)).advance, none⟩
  | .loadRegisters x =>
    ⟨((m.loadBlock (x.val + 1)).moveIndex p.dialect (x.val + 1)).advance, none⟩

end Instruction

end Chip8
