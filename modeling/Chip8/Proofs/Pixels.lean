/-
  One pixel. Flipping the pixel in a column and a row should change just that pixel, or the one that
  it wraps around to, and nothing at all if it is clipped. Pixels are cells of one bank, row after
  row, and a cell is all that the bank checks. A point past the right or the bottom edge is clipped
  before that, but one past the left or the top edge is not: it strays, to a pixel of another row or
  out of the bank. All other points keep to the law (`xor_law_iff_not_stray`).
-/
import Chip8.Proofs.Flips
namespace Chip8.Screen

/-- The later screen differs from the earlier one in the pixel of one place, which was as given. -/
structure Toggles (s t : Screen) (q : Int × Int) (prior : UInt8) : Prop where
  contains : s.frame.Contains q
  before : s.pixel q.1 q.2 = .ok prior
  binary : prior = 0 ∨ prior = 1
  after : t.pixel q.1 q.2 = .ok (1 - prior)
  others : ∀ r, s.frame.Contains r → r ≠ q → t.pixel r.1 r.2 = s.pixel r.1 r.2
  frame : t.frame = s.frame

/-- The law of flipping the pixel in a column and a row. -/
structure XorLaw (s : Screen) (x y : Int) : Prop where
  wrapped : s.wraps = true → ∃ prior t, s.xorPixel x y = .ok (some prior, t) ∧
    s.Toggles t (x % s.width, y % s.height) prior
  inside : s.wraps = false → (0 ≤ x ∧ x < s.width) ∧ 0 ≤ y ∧ y < s.height →
    ∃ prior t, s.xorPixel x y = .ok (some prior, t) ∧ s.Toggles t (x, y) prior
  clipped : s.wraps = false → ¬ ((0 ≤ x ∧ x < s.width) ∧ 0 ≤ y ∧ y < s.height) →
    s.xorPixel x y = .ok (none, s)

/-- The point is past the left or the top edge, where nothing clips it. -/
def Strays (s : Screen) (x y : Int) : Prop :=
  s.wraps = false ∧ (x < 0 ∨ y < 0) ∧ x < s.width ∧ y < s.height

/-- A pixel that is 0 or 1 is flipped to the other. -/
theorem flip_eq_sub {b : UInt8} (hb : b = 0 ∨ b = 1) : b ^^^ 1 = 1 - b := by
  rcases hb with rfl | rfl
  · rfl
  · rfl

section Locate

variable {s : Screen} {x y : Int} (hwrap : s.wraps = false)

include hwrap

theorem locate_unclipped (hx : x < s.width) (hy : y < s.height) :
    s.locate x y = .ok (some (y * s.width + x)) := by
  rw [locate, hwrap, if_neg Bool.false_ne_true, if_neg (by omega)]

theorem xorPixel_clipped (hout : s.width ≤ x ∨ s.height ≤ y) : s.xorPixel x y = .ok (none, s) := by
  rw [xorPixel, locate, hwrap, if_neg Bool.false_ne_true, if_pos hout]
  rfl

end Locate

section Pixel

variable {s : Screen} (hs : s.Sound) {x y : Int}

include hs

/-- Flipping the cell of a place toggles the pixel there. -/
theorem flipAt_toggles (hbinary : s.Binary) {q : Int × Int} (hq : s.frame.Contains q) :
    s.Toggles (s.flipAt (s.frame.cellOf q)) q (s.bank.cells.getD (s.frame.cellOf q) 0) := by
  have hcell := getElem?_cellOf hs.filled hq
  have hprior := hbinary _ (Array.mem_of_getElem? hcell)
  have hframe := s.frame_flipAt (s.frame.cellOf q)
  have hfilled := filled_of_frame hframe hs.filled
  have hafter : ∀ r, s.frame.Contains r →
      (s.flipAt (s.frame.cellOf q)).pixel r.1 r.2 =
        .ok ((flip s.bank.cells (s.frame.cellOf q)).getD (s.frame.cellOf r) 0) := by
    intro r hr
    rw [← hframe] at hr
    have hpixel := pixel_eq hfilled hr
    rw [hframe] at hpixel
    exact hpixel
  exact {
    contains := hq
    before := pixel_eq hs.filled hq
    binary := hprior
    after := by
      rw [hafter q hq, Array.getD_eq_getD_getElem?, getElem?_flip, if_pos rfl, hcell,
        ← flip_eq_sub hprior]
      rfl
    others := by
      intro r hr hne
      have hother : s.frame.cellOf q ≠ s.frame.cellOf r :=
        fun h => hne (Frame.cellOf_injective hr hq h.symm)
      rw [hafter r hr, pixel_eq hs.filled hr, Array.getD_eq_getD_getElem?, getElem?_flip,
        if_neg hother, ← Array.getD_eq_getD_getElem?]
    frame := hframe }

theorem xorPixel_toggles (hbinary : s.Binary) {q : Int × Int} (hq : s.frame.Contains q)
    (hlocate : s.locate x y = .ok (some (q.2 * s.width + q.1))) :
    ∃ prior t, s.xorPixel x y = .ok (some prior, t) ∧ s.Toggles t q prior :=
  ⟨_, _, xorPixel_of_locate (p := (x, y)) hs.filled hq hlocate, flipAt_toggles hs hbinary hq⟩

theorem locate_wrapped (hwrap : s.wraps = true) :
    s.locate x y = .ok (some (y % s.height * s.width + x % s.width)) := by
  have hlocate := locate_eq hs.width hs.height (x, y)
  rw [Frame.place?, if_pos (show s.frame.wraps = true from hwrap)] at hlocate
  exact hlocate

theorem contains_wrapped : s.frame.Contains (x % s.width, y % s.height) := by
  have hw := hs.width
  have hh := hs.height
  exact ⟨⟨Int.emod_nonneg x (by omega), Int.emod_lt_of_pos x hw⟩,
    Int.emod_nonneg y (by omega), Int.emod_lt_of_pos y hh⟩

/-! ## Points that stray -/

/-- A point that strays is taken for the place whose cell it comes to, or for a cell before the
first one. -/
theorem xorPixel_strays (hbinary : s.Binary) (h : s.Strays x y) :
    (y * s.width + x < 0 →
      s.xorPixel x y = .error (.fault (.memoryOverflow (y * s.width + x)))) ∧
    (0 ≤ y * s.width + x → ∃ prior t, s.xorPixel x y = .ok (some prior, t) ∧
      s.Toggles t (x % s.width, y + x / s.width) prior) := by
  obtain ⟨hwrap, -, hx, hy⟩ := h
  have hlocate := locate_unclipped hwrap hx hy
  constructor
  · intro hneg
    have hcheck : s.bank.check (y * s.width + x) =
        .error (.fault (.memoryOverflow (y * s.width + x))) := if_neg (by omega)
    rw [xorPixel, hlocate]
    simp only [bind, Except.bind, Ram.read, hcheck]
  · intro hpos
    have hw := hs.width
    have hcell : (y + x / s.width) * s.width + x % s.width = y * s.width + x := by
      rw [Int.add_mul, Int.add_assoc, Int.mul_comm (x / s.width), Int.mul_ediv_add_emod]
    have hcolumn := Int.emod_nonneg x (by omega : s.width ≠ 0)
    have hcolumn' := Int.emod_lt_of_pos x hw
    have hrow : 0 ≤ y + x / s.width := by
      by_contra hneg
      have hle : (y + x / s.width + 1) * s.width ≤ 0 :=
        Int.mul_nonpos_of_nonpos_of_nonneg (by omega) (by omega)
      rw [Int.add_mul, Int.one_mul] at hle
      omega
    have hback : x / s.width ≤ 0 := by
      have hlt := Int.ediv_lt_of_lt_mul hw (by omega : x < 1 * s.width)
      omega
    have hq : s.frame.Contains (x % s.width, y + x / s.width) :=
      ⟨⟨hcolumn, hcolumn'⟩, hrow, by show _ < s.height; omega⟩
    rw [← hcell] at hlocate
    exact xorPixel_toggles hs hbinary hq hlocate

end Pixel

/-- A pixel is flipped by the law exactly if the point does not stray. A point that strays never
keeps to the law, by which it would be clipped: if it comes to a cell of the bank, then the pixel of
that cell is toggled, in a row further up, and else the bank refuses it. -/
theorem xor_law_iff_not_stray {s : Screen} (hs : s.Sound) (hbinary : s.Binary) (x y : Int) :
    (s.XorLaw x y ↔ ¬ s.Strays x y) ∧
    (s.Strays x y →
      (y * s.width + x < 0 →
        s.xorPixel x y = .error (.fault (.memoryOverflow (y * s.width + x)))) ∧
      (0 ≤ y * s.width + x → ∃ prior t, s.xorPixel x y = .ok (some prior, t) ∧
        s.Toggles t (x % s.width, y + x / s.width) prior)) := by
  refine ⟨⟨?_, ?_⟩, xorPixel_strays hs hbinary⟩
  · intro hlaw hstray
    obtain ⟨hnegative, hcell⟩ := xorPixel_strays hs hbinary hstray
    obtain ⟨hwrap, hout, -⟩ := hstray
    have hclipped := hlaw.clipped hwrap (by omega)
    by_cases hpos : 0 ≤ y * s.width + x
    · obtain ⟨prior, t, hxor, -⟩ := hcell hpos
      rw [hclipped] at hxor
      cases hxor
    · rw [hclipped] at hnegative
      cases hnegative (by omega)
  · intro hregular
    exact {
      wrapped := fun hwrap => xorPixel_toggles hs hbinary (contains_wrapped hs)
        (locate_wrapped hs hwrap)
      inside := fun hwrap hin => xorPixel_toggles hs hbinary (q := (x, y)) hin
        (locate_unclipped hwrap hin.1.2 hin.2.2)
      clipped := by
        intro hwrap hout
        refine xorPixel_clipped hwrap ?_
        by_contra hnear
        exact hregular ⟨hwrap, by omega, by omega, by omega⟩ }

/-- A screen of two rows of three pixels that clips. -/
def clippingScreen : Screen := ⟨3, 2, false, ⟨#[0, 1, 0, 0, 0, 1]⟩⟩

theorem xor_law_iff_not_stray_clipping :
    clippingScreen.Sound ∧ clippingScreen.Binary ∧ clippingScreen.XorLaw 1 0 ∧
      clippingScreen.XorLaw 3 0 ∧ ¬ clippingScreen.XorLaw (-1) 1 := by
  have hs : clippingScreen.Sound := ⟨by decide, by decide, rfl⟩
  have hbinary : clippingScreen.Binary := by simp [Binary, clippingScreen]
  have hlaw := xor_law_iff_not_stray hs hbinary
  refine ⟨hs, hbinary, (hlaw 1 0).1.mpr ?_, (hlaw 3 0).1.mpr ?_, ?_⟩
  · unfold Strays
    decide
  · unfold Strays
    decide
  · intro h
    exact (hlaw (-1) 1).1.mp h ⟨rfl, by decide⟩

/-- A point left of the screen is not clipped: the last pixel of the row above is toggled, and in
the first row there is none. -/
theorem xorPixel_breaks_law :
    (clippingScreen.xorPixel (-1) 1).map Prod.fst = .ok (some 0) ∧
      (clippingScreen.xorPixel (-1) 0).map Prod.fst = .error (.fault (.memoryOverflow (-1))) ∧
      ¬ clippingScreen.XorLaw (-1) 1 ∧ ¬ clippingScreen.XorLaw (-1) 0 := by
  have hrow : (clippingScreen.xorPixel (-1) 1).map Prod.fst = .ok (some 0) := rfl
  have hfirst : (clippingScreen.xorPixel (-1) 0).map Prod.fst =
      .error (.fault (.memoryOverflow (-1))) := rfl
  refine ⟨hrow, hfirst, ?_, ?_⟩
  · intro h
    rw [h.clipped rfl (by decide)] at hrow
    cases hrow
  · intro h
    rw [h.clipped rfl (by decide)] at hfirst
    cases hfirst

end Chip8.Screen
