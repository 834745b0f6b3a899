/-
  Time as the host loop needs it: sums, differences and comparison of times in seconds, whole
  seconds, and the length of a frame. A clock can be read and can be slept on; both may move it.
-/
import Chip8.Fault
namespace Chip8.Host

/-- Times in seconds. -/
class Time (τ : Type) extends Add τ, Sub τ where
  /-- One time comes before another. -/
  before : τ → τ → Bool
  /-- A time has come by now, which may be later. -/
  reached (time now : τ) : Bool
  /-- The time of a number of whole seconds. -/
  ofSeconds : Int → τ
  /-- The whole seconds of a time, cut off toward zero. There are none in a time without end. -/
  seconds : τ → Except Failure Int
  /-- The length of a frame: a sixtieth of a second. -/
  frame : τ

/-- The later of two times, and the first of them if they are equal. -/
def Time.later {τ : Type} [Time τ] (a b : τ) : τ := if Time.before a b then b else a

/-- A clock with states of type `κ`. -/
structure Clock (κ τ : Type) where
  /-- The time, and the clock after it was read. -/
  read : κ → Except Failure (τ × κ)
  /-- The clock after a sleep, which may be too long for it. -/
  sleep : τ → κ → Except Failure κ

/-! ## Binary floating point -/

/-- The exponent of a number as it is stored. Its largest value marks what is not finite. -/
def exponentBits (x : Float) : Nat := (x.toBits.toNat >>> 52) % 0x800

/-- The fraction of a number as it is stored. -/
def fractionBits (x : Float) : Nat := x.toBits.toNat % 0x10000000000000

/-- The integer part of a finite number, exactly. A number is its significand, shifted by its
exponent less 1075; the topmost bit is its sign. -/
def truncate (x : Float) : Int :=
  let exponent := exponentBits x
  let significand := if exponent = 0 then fractionBits x else fractionBits x + 0x10000000000000
  let magnitude : Nat :=
    if 1075 ≤ exponent then significand <<< (exponent - 1075)
    else significand >>> (1075 - exponent)
  if x.toBits.toNat >>> 63 = 1 then -(magnitude : Int) else magnitude

/-- The integer part of a number that may be infinite, or no number at all. -/
def integerPart (x : Float) : Except Failure Int :=
  if exponentBits x < 0x7FF then .ok (truncate x)
  else .error (.misuse (if fractionBits x = 0 then .overflow else .valueOutOfRange))

instance : Time Float where
  before a b := decide (a < b)
  reached time now := decide (time ≤ now)
  ofSeconds := Float.ofInt
  seconds := integerPart
  frame := 1.0 / 60.0

/-- A clock that moves only when it is read and when it is slept on: each reading costs the next
of some costs, which come round again. -/
structure SteppedClock where
  now : Float
  /-- The cost of the reading of each number. Without a cost there is no reading. -/
  cost : Nat → Except Failure Float
  /-- How many readings were taken. -/
  readings : Nat := 0

/-- A stepped clock as a clock. -/
def SteppedClock.clock : Clock SteppedClock Float where
  read c := do
    let cost ← c.cost c.readings
    return (c.now, { c with now := c.now + cost, readings := c.readings + 1 })
  sleep delay c := .ok { c with now := c.now + delay }

end Chip8.Host
