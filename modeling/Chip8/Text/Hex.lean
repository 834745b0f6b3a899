/-
  Lower-case hexadecimal text. A number is written with its sign and padded with zeros to a
  least width that counts the sign, so -1 in width four is "-001". A number that is too wide
  for the width is written whole.
-/
namespace Chip8.Text.Hex

/-- The character of a value below sixteen. -/
def digit (n : Nat) : Char :=
  if n < 10 then Char.ofNat (48 + n) else Char.ofNat (87 + n)

/-- The digits of a natural number, most significant first, with no leading zero. -/
def digits (n : Nat) : List Char :=
  if n < 16 then [digit n] else digits (n / 16) ++ [digit (n % 16)]
termination_by n
decreasing_by omega

/-- Digits padded on the left with zeros to at least `width` characters. -/
def padded (width n : Nat) : List Char :=
  List.replicate (width - (digits n).length) '0' ++ digits n

/-- The characters of an integer, in which a minus sign takes up one place of the width. -/
def chars (width : Nat) : Int → List Char
  | .ofNat n => padded width n
  | .negSucc n => '-' :: padded (width - 1) (n + 1)

/-- The text of an integer in at least `width` characters. -/
def text (width : Nat) (value : Int) : String := String.ofList (chars width value)

/-- The two digits of a byte. -/
def byteChars (b : UInt8) : List Char := [digit (b.toNat / 16), digit (b.toNat % 16)]

/-- The text of a run of bytes, two digits each. -/
def bytes (bs : List UInt8) : String := String.ofList (bs.flatMap byteChars)

/-- The value of a hexadecimal digit in either case. -/
def digitValue? (c : Char) : Option Nat :=
  let n := c.toNat
  if 48 ≤ n ∧ n ≤ 57 then some (n - 48)
  else if 97 ≤ n ∧ n ≤ 102 then some (n - 87)
  else if 65 ≤ n ∧ n ≤ 70 then some (n - 55)
  else none

/-- A byte fills exactly two places. -/
theorem byteChars_eq_chars (b : UInt8) : byteChars b = chars 2 b.toNat := by
  have hb : b.toNat < 256 := b.toNat_lt
  have hd (n : Nat) (h : n < 16) : digits n = [digit n] := by rw [digits, if_pos h]
  simp only [byteChars, chars, padded]
  by_cases h : b.toNat < 16
  · rw [hd _ h, Nat.div_eq_of_lt h, Nat.mod_eq_of_lt h]
    rfl
  · rw [digits, if_neg h, hd _ (by omega)]
    rfl

end Chip8.Text.Hex
