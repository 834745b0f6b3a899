/-
  Integers written by people: blanks around, an optional sign, and digits of any script, where
  one underscore may stand between two digits. A hexadecimal integer may also open with 0x,
  which one underscore may follow.
-/
import Chip8.Text.Blank
import Chip8.Text.Digit
import Chip8.Text.Hex
namespace Chip8.Text

/-- The two radices in which integers are written. -/
inductive Radix where
  | decimal
  | hexadecimal
  deriving DecidableEq

namespace Radix

/-- The number of digit values. -/
def base : Radix → Nat
  | .decimal => 10
  | .hexadecimal => 16

/-- The value of a digit: decimal digits of any script, and the Latin letters up to f. -/
def digitValue? (r : Radix) (c : Char) : Option Nat :=
  match r, decimalValue? c with
  | _, some d => some d
  | .decimal, none => none
  | .hexadecimal, none => Hex.digitValue? c

/-- The most digits an integer may have. Hexadecimal integers have no limit. -/
def maxDigits? : Radix → Option Nat
  | .decimal => some 4300
  | .hexadecimal => none

end Radix

/-- The digit values of a text that has one underscore at most between two digits, and a digit
at each end. -/
def digitValues? (r : Radix) : List Char → Option (List Nat)
  | [] => none
  | c :: rest =>
    match r.digitValue? c, rest with
    | none, _ => none
    | some d, [] => some [d]
    | some d, '_' :: rest => (digitValues? r rest).map (d :: ·)
    | some d, c :: rest => (digitValues? r (c :: rest)).map (d :: ·)

/-- The number with the given digits, most significant first. -/
def ofDigitValues (base : Nat) (ds : List Nat) : Nat :=
  ds.foldl (fun n d => n * base + d) 0

/-- The text after an opening 0x and the underscore that may follow it. -/
def dropRadixMark (r : Radix) (cs : List Char) : List Char :=
  match r, cs with
  | .hexadecimal, z :: x :: rest =>
    if decimalValue? z = some 0 ∧ (x = 'x' ∨ x = 'X') then
      match rest with
      | '_' :: rest => rest
      | rest => rest
    else cs
  | _, _ => cs

/-- The number of a text without sign and without blanks around. -/
def readMagnitude? (r : Radix) (cs : List Char) : Option Nat :=
  match digitValues? r (dropRadixMark r cs), r.maxDigits? with
  | none, _ => none
  | some ds, none => some (ofDigitValues r.base ds)
  | some ds, some most => if ds.length ≤ most then some (ofDigitValues r.base ds) else none

/-- The integer that a text stands for. -/
def readInteger? (r : Radix) (text : List Char) : Option Int :=
  match trimBlanks text with
  | '-' :: cs => (readMagnitude? r cs).map fun n => -(n : Int)
  | '+' :: cs => (readMagnitude? r cs).map Int.ofNat
  | cs => (readMagnitude? r cs).map Int.ofNat

end Chip8.Text
