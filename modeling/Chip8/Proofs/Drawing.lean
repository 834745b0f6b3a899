/-
  What drawing does to a screen. A pixel that is flipped is one cell of the bank, so the size of
  the screen and its way with the edges stay, and pixels that are 0 or 1 stay 0 or 1. A screen with
  room and with one cell for each pixel can be cleared.
-/
import Chip8.Screen
namespace Chip8.Screen

/-- What drawing leaves alone: the dimensions, the way with the edges, the size of the bank. -/
structure Frame where
  width : Int
  height : Int
  wraps : Bool
  cells : Nat

/-- The frame of a screen. -/
def frame (s : Screen) : Frame := ⟨s.width, s.height, s.wraps, s.bank.size⟩

/-- The bank has one cell for each pixel. -/
def Filled (s : Screen) : Prop := (s.bank.size : Int) = s.area

/-- The screen has room, and one cell for each pixel. -/
structure Sound (s : Screen) : Prop where
  width : 0 < s.width
  height : 0 < s.height
  filled : s.Filled

/-- Every pixel is 0 or 1. -/
def Binary (s : Screen) : Prop := ∀ b ∈ s.bank.cells, b = 0 ∨ b = 1

section Frame

variable {s t : Screen} (h : t.frame = s.frame)

include h

theorem width_of_frame : t.width = s.width := congrArg Frame.width h

theorem height_of_frame : t.height = s.height := congrArg Frame.height h

theorem filled_of_frame (hs : s.Filled) : t.Filled := by
  have hcells : t.bank.size = s.bank.size := congrArg Frame.cells h
  unfold Filled area at hs ⊢
  rw [width_of_frame h, height_of_frame h, hcells]
  exact hs

theorem sound_of_frame (hs : s.Sound) : t.Sound where
  width := by rw [width_of_frame h]; exact hs.width
  height := by rw [height_of_frame h]; exact hs.height
  filled := filled_of_frame h hs.filled

end Frame

/-! ## One pixel -/

/-- A pixel that is clipped changes nothing; any other is one cell, of which the last bit flips. -/
theorem xorPixel_eq_ok {s t : Screen} {x y : Int} {prior : Option UInt8}
    (h : s.xorPixel x y = .ok (prior, t)) :
    (prior = none ∧ t = s) ∨
      ∃ (k : Nat) (hk : k < s.bank.cells.size), prior = some s.bank.cells[k] ∧
        t = { s with bank := ⟨s.bank.cells.setIfInBounds k (s.bank.cells[k] ^^^ 1)⟩ } := by
  unfold xorPixel at h
  cases hl : s.locate x y with
  | error e => simp [hl, bind, Except.bind] at h
  | ok cell? =>
    cases cell? with
    | none =>
      simp only [hl, bind, Except.bind, pure, Except.pure, Except.ok.injEq, Prod.mk.injEq] at h
      exact Or.inl ⟨h.1.symm, h.2.symm⟩
    | some cell =>
      simp only [hl, bind, Except.bind, Ram.read, Ram.store] at h
      cases hc : s.bank.check cell with
      | error e => simp [hc] at h
      | ok u =>
        obtain ⟨h0, hlt⟩ := Ram.check_eq_ok_iff.mp hc
        have hk : cell.toNat < s.bank.cells.size := by unfold Ram.size at hlt; omega
        simp only [hc, pure, Except.pure, Except.ok.injEq, Prod.mk.injEq] at h
        refine Or.inr ⟨cell.toNat, hk, ?_, ?_⟩
        · rw [← h.1, Array.getD_eq_getD_getElem?, Array.getElem?_eq_getElem hk]
          rfl
        · rw [← h.2, Array.getD_eq_getD_getElem?, Array.getElem?_eq_getElem hk]
          rfl

theorem xorPixel_frame {s t : Screen} {x y : Int} {prior : Option UInt8}
    (h : s.xorPixel x y = .ok (prior, t)) : t.frame = s.frame := by
  obtain ⟨-, rfl⟩ | ⟨k, hk, -, rfl⟩ := xorPixel_eq_ok h
  · rfl
  · simp [frame, Ram.size]

theorem xorPixel_binary {s t : Screen} {x y : Int} {prior : Option UInt8} (hs : s.Binary)
    (h : s.xorPixel x y = .ok (prior, t)) : t.Binary := by
  obtain ⟨-, rfl⟩ | ⟨k, hk, -, rfl⟩ := xorPixel_eq_ok h
  · exact hs
  · intro b hb
    rcases Array.mem_or_eq_of_mem_setIfInBounds hb with hb | rfl
    · exact hs b hb
    · rcases hs _ (Array.getElem_mem hk) with h0 | h1
      · rw [h0]; exact Or.inr rfl
      · rw [h1]; exact Or.inl rfl

/-! ## Many pixels -/

theorem draw_frame (s : Screen) (collision : UInt8) (points : List (Int × Int)) :
    (s.draw collision points).screen.frame = s.frame := by
  induction points generalizing s collision with
  | nil => rfl
  | cons point points ih =>
    obtain ⟨x, y⟩ := point
    cases hx : s.xorPixel x y with
    | error e => simp [draw, hx]
    | ok r =>
      obtain ⟨prior, t⟩ := r
      simp only [draw, hx]
      rw [ih, xorPixel_frame hx]

theorem draw_binary {s : Screen} (hs : s.Binary) (collision : UInt8) (points : List (Int × Int)) :
    (s.draw collision points).screen.Binary := by
  induction points generalizing s collision with
  | nil => exact hs
  | cons point points ih =>
    obtain ⟨x, y⟩ := point
    cases hx : s.xorPixel x y with
    | error e => simpa [draw, hx] using hs
    | ok r =>
      obtain ⟨prior, t⟩ := r
      simp only [draw, hx]
      exact ih (xorPixel_binary hs hx) _

/-! ## Clearing -/

/-- A byte of an overwritten bank was there before, or comes from the block. -/
theorem mem_of_mem_overwrite {b : UInt8} {cells : Array UInt8} {i : Nat} {bs : List UInt8}
    (h : b ∈ Ram.overwrite cells i bs) : b ∈ cells ∨ b ∈ bs := by
  induction bs generalizing cells i with
  | nil => exact Or.inl h
  | cons c bs ih =>
    rcases ih h with h | h
    · rcases Array.mem_or_eq_of_mem_setIfInBounds h with h | rfl
      · exact Or.inl h
      · exact Or.inr List.mem_cons_self
    · exact Or.inr (List.mem_cons_of_mem _ h)

/-- Clearing fills the bank with zeros. -/
theorem clear_eq_ok {s t : Screen} (h : s.clear = .ok t) :
    t = { s with bank :=
      ⟨Ram.overwrite s.bank.cells 0 (List.replicate s.bank.size 0)⟩ } := by
  unfold clear Ram.clear at h
  cases hc : s.bank.check (s.bank.size - 1) with
  | error e =>
    rw [hc] at h
    cases h
  | ok u =>
    rw [hc] at h
    cases h
    rfl

theorem clear_frame {s t : Screen} (h : s.clear = .ok t) : t.frame = s.frame := by
  rw [clear_eq_ok h]
  simp [frame, Ram.size, Ram.size_overwrite]

theorem clear_binary {s t : Screen} (hs : s.Binary) (h : s.clear = .ok t) : t.Binary := by
  rw [clear_eq_ok h]
  intro b hb
  rcases mem_of_mem_overwrite hb with hb | hb
  · exact hs b hb
  · exact Or.inl (List.eq_of_mem_replicate hb)

/-- A screen with room can be cleared. -/
theorem clear_ok {s : Screen} (hs : s.Filled) (hw : 0 < s.width) (hh : 0 < s.height) :
    ∃ t, s.clear = .ok t := by
  have hpos : 0 < s.width * s.height := Int.mul_pos hw hh
  unfold Filled area at hs
  have hc : s.bank.check (s.bank.size - 1) = .ok () :=
    Ram.check_eq_ok_iff.mpr ⟨by omega, by omega⟩
  unfold clear Ram.clear
  rw [hc]
  exact ⟨_, rfl⟩

end Chip8.Screen
