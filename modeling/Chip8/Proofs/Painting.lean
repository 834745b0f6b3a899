/-
  What a window paints. The image is kept from frame to frame: a screen of the size of the last one
  is painted over it, and for any other size there is a new image of zeros. Either way the image has
  three bytes for each pixel before the painting begins, so the colours of the pixels, one after
  another, take up all of it (`draw_eq`). What was drawn before, at whatever size, leaves nothing
  behind (`image_is_screen`).
-/
import Chip8.Host.Window
import Chip8.Proofs.Bank
import Chip8.Proofs.Colours
import Chip8.Proofs.Drawing
namespace Chip8.Host

/-! ## Colours -/

namespace Palette

/-- The colour of a pixel that is 0 or 1. -/
def colourOf (p : Palette) (pixel : UInt8) : Colour :=
  if pixel = 0 then p.background else p.foreground

/-- The colours of some pixels, byte by byte. -/
def expand (p : Palette) (pixels : List UInt8) : List UInt8 :=
  pixels.flatMap fun pixel => (p.colourOf pixel).bytes

variable (p : Palette)

theorem colour?_of_binary {pixel : UInt8} (h : pixel = 0 ∨ pixel = 1) :
    p.colour? pixel = some (p.colourOf pixel) := by
  rcases h with rfl | rfl
  · rfl
  · rfl

theorem expand_cons (pixel : UInt8) (pixels : List UInt8) :
    p.expand (pixel :: pixels) = (p.colourOf pixel).bytes ++ p.expand pixels := List.flatMap_cons

theorem length_expand (pixels : List UInt8) : (p.expand pixels).length = 3 * pixels.length := by
  induction pixels with
  | nil => rfl
  | cons pixel pixels ih =>
    rw [expand_cons, List.length_append, ih, List.length_cons, Colour.bytes]
    simp only [List.length_cons, List.length_nil]
    omega

/-- The colour of a pixel lies after three bytes for each pixel before. -/
theorem take_drop_expand {pixels : List UInt8} {k : Nat} {pixel : UInt8}
    (h : pixels[k]? = some pixel) :
    ((p.expand pixels).drop (3 * k)).take 3 = (p.colourOf pixel).bytes := by
  induction pixels generalizing k with
  | nil => cases h
  | cons first pixels ih =>
    rw [expand_cons]
    cases k with
    | zero =>
      cases h
      rfl
    | succ k => exact ih h

end Palette

/-! ## Painting -/

/-- Two blocks stored one after the other are stored as one. -/
theorem overwrite_append (cells : Array UInt8) (i : Nat) (bs cs : List UInt8) :
    Ram.overwrite cells i (bs ++ cs) =
      Ram.overwrite (Ram.overwrite cells i bs) (i + bs.length) cs := by
  induction bs generalizing cells i with
  | nil => rfl
  | cons b bs ih =>
    rw [List.cons_append, Ram.overwrite, Ram.overwrite, ih, List.length_cons,
      Nat.add_right_comm i 1, Nat.add_assoc]

namespace Window

theorem paint_eq (p : Palette) (image : Array UInt8) (location : Nat) {pixels : List UInt8}
    (h : ∀ pixel ∈ pixels, pixel = 0 ∨ pixel = 1) :
    paint p image location pixels =
      (.ok (), Ram.overwrite image (3 * location) (p.expand pixels)) := by
  induction pixels generalizing image location with
  | nil => rfl
  | cons pixel pixels ih =>
    obtain ⟨hpixel, hrest⟩ := List.forall_mem_cons.mp h
    rw [paint, p.colour?_of_binary hpixel, p.expand_cons, overwrite_append]
    exact ih _ _ hrest

/-- The image has three bytes for each pixel of the viewport. -/
def Fitted (w : Window) : Prop :=
  w.image.size = (w.viewport.width * w.viewport.height * 3).toNat

theorem fitted_new (scale : Int) (size : Int × Int) (p : Palette) : (new scale size p).Fitted := rfl

theorem fit_parts (w : Window) (s : Screen) :
    w.fit s = { w with
      viewport := w.viewport.resize s.width s.height, image := (w.fit s).image } := by
  unfold fit
  split
  · rename_i hsame
    rw [hsame.1, hsame.2]
    rfl
  · rfl

theorem size_fit {w : Window} (hw : w.Fitted) (s : Screen) :
    (w.fit s).image.size = (s.width * s.height * 3).toNat := by
  unfold fit
  split
  · rename_i hsame
    rw [hsame.1, hsame.2]
    exact hw
  · exact Array.size_replicate

/-- A block that is as long as the bank takes up all of it. -/
theorem overwrite_all {cells : Array UInt8} {bs : List UInt8} (h : bs.length = cells.size) :
    Ram.overwrite cells 0 bs = bs.toArray := by
  apply Array.toList_inj.mp
  rw [Ram.toList_overwrite (by omega), Nat.zero_add, h, ← Array.length_toList, List.drop_length,
    List.append_nil]
  rfl

/-- A screen has one cell for each pixel, and its pixels are 0 or 1. -/
structure Drawable (s : Screen) : Prop where
  filled : s.Filled
  binary : s.Binary

theorem Drawable.length_pixels {s : Screen} (hs : Drawable s) :
    (s.pixels.length : Int) = s.width * s.height := by
  rw [Screen.pixels, Array.length_toList]
  exact hs.filled

/-- After a screen is drawn, its size is that of the viewport, and the image is the colours of its
pixels, whatever the desktop makes of them. -/
theorem draw_eq {w : Window} (hw : w.Fitted) {s : Screen} (hs : Drawable s) :
    (w.draw s).2 = { w with
      viewport := w.viewport.resize s.width s.height
      image := (w.palette.expand s.pixels).toArray } := by
  have hpixels : ∀ pixel ∈ s.pixels, pixel = 0 ∨ pixel = 1 :=
    fun pixel hmem => hs.binary pixel (Array.mem_toList_iff.mp hmem)
  have hparts := w.fit_parts s
  have hpalette : (w.fit s).palette = w.palette := by rw [hparts]
  have hlength : (w.palette.expand s.pixels).length = (w.fit s).image.size := by
    have harea := hs.length_pixels
    rw [Palette.length_expand, size_fit hw]
    omega
  -- the colours take up the whole image, so it is the same whatever it was before
  have hdraw : (w.draw s).2 =
      { w.fit s with image := (w.palette.expand s.pixels).toArray } := by
    unfold draw
    dsimp only
    rw [paint_eq _ _ _ hpixels, hpalette, Nat.mul_zero, overwrite_all hlength]
    dsimp only
    split
    · rfl
    · split
      · rfl
      · rfl
  rw [hdraw, hparts]

theorem fitted_draw {w : Window} (hw : w.Fitted) {s : Screen} (hs : Drawable s) :
    (w.draw s).2.Fitted := by
  have harea := hs.length_pixels
  rw [draw_eq hw hs, Fitted, List.size_toArray, Palette.length_expand]
  show _ = (s.width * s.height * 3).toNat
  omega

/-! ## Frame after frame -/

/-- The window after some screens are drawn, one after another. -/
def drawAll (w : Window) (screens : List Screen) : Window :=
  screens.foldl (fun w s => (w.draw s).2) w

/-- After any screens, the last one is drawn as if it had been the only one. -/
theorem drawAll_concat {w : Window} (hw : w.Fitted) {past : List Screen} {s : Screen}
    (h : ∀ t ∈ past ++ [s], Drawable t) : w.drawAll (past ++ [s]) = (w.draw s).2 := by
  have hs : Drawable s := h s List.mem_concat_self
  -- a screen that was drawn before leaves a fitted window, of which the last one keeps the palette
  -- and the scale only
  induction past generalizing w with
  | nil => rfl
  | cons t past ih =>
    obtain ⟨ht, hrest⟩ := List.forall_mem_cons.mp h
    have hfitted := fitted_draw hw ht
    have hcons : w.drawAll (t :: past ++ [s]) = (w.draw t).2.drawAll (past ++ [s]) := rfl
    rw [hcons, ih hfitted hrest, draw_eq hfitted hs, draw_eq hw ht, draw_eq hw hs]
    rfl

/-- The image is a screen in the colours of a palette: it has three bytes for each pixel, and those
of a pixel are its colour. -/
structure Depicts (p : Palette) (s : Screen) (image : Array UInt8) : Prop where
  size : (image.size : Int) = 3 * (s.width * s.height)
  colours : ∀ k : Nat, (k : Int) < s.width * s.height →
    ∃ pixel, s.pixels[k]? = some pixel ∧
      (image.toList.drop (3 * k)).take 3 =
        (if pixel = 0 then p.background else p.foreground).bytes

theorem depicts_expand (p : Palette) {s : Screen} (hs : Drawable s) :
    Depicts p s (p.expand s.pixels).toArray := by
  have harea := hs.length_pixels
  refine ⟨?_, ?_⟩
  · rw [List.size_toArray, Palette.length_expand]
    omega
  · intro k hk
    have hlt : k < s.pixels.length := by omega
    have hpixel := List.getElem?_eq_getElem hlt
    exact ⟨_, hpixel, p.take_drop_expand hpixel⟩

/-- The image is exactly the screen. A window draws any screens, one after another, of whatever
sizes. After each of them the viewport has its size, and the image is this screen in the colours of
the palette; and the window is as if no other screen had been drawn before. -/
theorem image_is_screen (p : Palette) (scale : Int) (size : Int × Int) {screens : List Screen}
    (h : ∀ s ∈ screens, Drawable s) (past : List Screen) (s : Screen)
    (hupto : past ++ [s] <+: screens) :
    Depicts p s ((new scale size p).drawAll (past ++ [s])).image ∧
    ((new scale size p).drawAll (past ++ [s])).viewport = ⟨scale, s.width, s.height⟩ ∧
    (new scale size p).drawAll (past ++ [s]) = ((new scale size p).draw s).2 := by
  have hw := fitted_new scale size p
  have hall : ∀ t ∈ past ++ [s], Drawable t := fun t ht => h t (hupto.subset ht)
  have hs := hall s List.mem_concat_self
  have hlast := drawAll_concat hw hall
  rw [hlast, draw_eq hw hs]
  exact ⟨depicts_expand p hs, rfl, rfl⟩

/-- A row of two pixels, a column of two, and a screen without pixels. -/
def threeScreens : List Screen :=
  [⟨2, 1, true, ⟨#[1, 0]⟩⟩, ⟨1, 2, true, ⟨#[0, 1]⟩⟩, ⟨0, 5, false, ⟨#[]⟩⟩]

theorem drawable_threeScreens : ∀ s ∈ threeScreens, Drawable s := by
  simp only [threeScreens, List.forall_mem_cons, List.not_mem_nil, false_implies, implies_true,
    and_true]
  refine ⟨⟨rfl, ?_⟩, ⟨rfl, ?_⟩, rfl, ?_⟩
  · simp [Screen.Binary]
  · simp [Screen.Binary]
  · simp [Screen.Binary]

theorem image_is_screen_turned :
    (∀ s ∈ threeScreens, Drawable s) ∧
      threeScreens.take 2 <+: threeScreens ∧
      ((new 640 (640, 320) Palette.standard).drawAll (threeScreens.take 2)).image =
        #[0x64, 0x95, 0xED, 0xFF, 0xFF, 0xFF] ∧
      Depicts Palette.standard ⟨1, 2, true, ⟨#[0, 1]⟩⟩ #[0x64, 0x95, 0xED, 0xFF, 0xFF, 0xFF] := by
  have himage : ((new 640 (640, 320) Palette.standard).drawAll (threeScreens.take 2)).image =
      #[0x64, 0x95, 0xED, 0xFF, 0xFF, 0xFF] := by decide +kernel
  have hlast := image_is_screen Palette.standard 640 (640, 320) drawable_threeScreens
    (threeScreens.take 1) ⟨1, 2, true, ⟨#[0, 1]⟩⟩ (List.take_prefix 2 threeScreens)
  refine ⟨drawable_threeScreens, List.take_prefix 2 threeScreens, himage, ?_⟩
  rw [← himage]
  exact hlast.1

end Window

end Chip8.Host
