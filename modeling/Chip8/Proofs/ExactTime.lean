/-
  Time in exact numbers of seconds. Where a clock in binary floating point rounds, this one does
  not: sums and differences are those of rational numbers, and the whole seconds of a time are
  found without a limit on their number. A time has its whole seconds cut off toward zero, so that
  a later time never has fewer (`wholeSeconds_mono`).
-/
import Chip8.Host.Clock
import Mathlib.Data.Rat.Floor
namespace Chip8.Host

/-- The whole seconds of a time, cut off toward zero. -/
def wholeSeconds (t : ℚ) : Int := if 0 ≤ t then ⌊t⌋ else ⌈t⌉

instance : Time ℚ where
  before a b := decide (a < b)
  reached time now := decide (time ≤ now)
  ofSeconds n := n
  seconds t := .ok (wholeSeconds t)
  frame := 1 / 60

theorem wholeSeconds_intCast (n : Int) : wholeSeconds n = n := by
  unfold wholeSeconds
  split
  · exact Int.floor_intCast n
  · exact Int.ceil_intCast n

theorem wholeSeconds_mono {a b : ℚ} (h : a ≤ b) : wholeSeconds a ≤ wholeSeconds b := by
  unfold wholeSeconds
  by_cases ha : 0 ≤ a
  · rw [if_pos ha, if_pos (ha.trans h)]
    exact Int.floor_mono h
  · rw [if_neg ha]
    by_cases hb : 0 ≤ b
    · -- across zero: the earlier time has at most zero, and the later at least zero
      rw [if_pos hb]
      have hlow : ⌈a⌉ ≤ 0 := Int.ceil_le.mpr (by push_cast; linarith)
      have hhigh : 0 ≤ ⌊b⌋ := Int.le_floor.mpr (by push_cast; exact hb)
      exact hlow.trans hhigh
    · rw [if_neg hb]
      exact Int.ceil_mono h

/-- A time that has reached a whole second has that many seconds at least. -/
theorem le_wholeSeconds {n : Int} {t : ℚ} (h : (n : ℚ) ≤ t) : n ≤ wholeSeconds t := by
  have hmono := wholeSeconds_mono h
  rwa [wholeSeconds_intCast] at hmono

end Chip8.Host
