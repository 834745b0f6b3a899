/-
  The rows of a screen and its text. A row is as many pixels as the screen is wide, and the rows up
  to some row are the pixels up to the end of it (`flatten_rows`); a pixel that is asked for by its
  column and row is at that place in the rows (`getElem?_row`). The text has a line for each row and
  a character for each pixel. So the three computations of where a pixel is agree, on a screen of
  any size and after any drawing, and the text tells the pixels (`text_shows_pixels`).
-/
import Chip8.Proofs.Blocks
import Chip8.Proofs.Flips
import Chip8.Proofs.Geometry
import Chip8.Text.Fields
namespace Chip8.Screen

open Text

/-! ## Calls that draw -/

theorem binary_perform [Capacity] {s : Screen} (hs : s.Binary) {c : Panel.Call}
    (hc : ∀ width height, c ≠ .resize width height) : (s.perform c).2.Binary := by
  cases c with
  | clear =>
    rw [perform]
    cases h : s.clear with
    | ok t => exact clear_binary hs h
    | error e => exact hs
  | pixel x y => exact hs
  | xorPixel x y =>
    rw [perform]
    cases h : s.xorPixel x y with
    | ok r => exact xorPixel_binary hs h
    | error e => exact hs
  | resize width height => exact absurd rfl (hc width height)

/-- Through any calls that are no change of size, those that fail included, the frame stays, and
pixels stay 0 or 1. -/
theorem after_draws [Capacity] {s : Screen} (hs : s.Binary) {calls : List Panel.Call}
    (hcalls : ∀ width height, .resize width height ∉ calls) :
    (s.after calls).frame = s.frame ∧ (s.after calls).Binary := by
  induction calls generalizing s with
  | nil => exact ⟨rfl, hs⟩
  | cons c calls ih =>
    have hc : ∀ width height, c ≠ .resize width height := by
      rintro width height rfl
      exact hcalls width height List.mem_cons_self
    obtain ⟨hframe, hbinary⟩ := ih (binary_perform hs hc)
      fun width height hmem => hcalls width height (List.mem_cons_of_mem c hmem)
    refine ⟨hframe.trans ?_, hbinary⟩
    cases s.outcome c with
    | kept _ hkept => exact hkept
    | resized width height hresize => exact absurd hresize.1 (hc width height)
    | refused width height hresize => exact absurd hresize.1 (hc width height)

/-! ## Rows -/

/-- The pixels of a row. -/
def row (s : Screen) (y : Nat) : List UInt8 :=
  (s.pixels.drop (y * s.width.toNat)).take s.width.toNat

/-- The rows up to some row are the pixels up to the end of it. -/
theorem flatten_rows (s : Screen) (k : Nat) :
    ((List.range k).map s.row).flatten = s.pixels.take (k * s.width.toNat) := by
  induction k with
  | zero => rw [Nat.zero_mul, List.take_zero]; rfl
  | succ k ih =>
    rw [List.range_succ, List.map_append, List.flatten_append, ih, Nat.succ_mul, List.take_add]
    simp [row]

/-- Where nothing fails, everything is taken in turn. -/
theorem mapM_eq_ok {α β : Type} {f : α → Except Failure β} {g : α → β} {items : List α}
    (h : ∀ item ∈ items, f item = .ok (g item)) : items.mapM f = .ok (items.map g) := by
  induction items with
  | nil => rfl
  | cons item items ih =>
    obtain ⟨hitem, hitems⟩ := List.forall_mem_cons.mp h
    rw [List.mapM_cons, hitem, ih hitems]
    rfl

section Sound

variable {s : Screen} (hs : s.Sound)

include hs

theorem Sound.width_cast : (s.width.toNat : Int) = s.width :=
  Int.toNat_of_nonneg (Int.le_of_lt hs.width)

theorem Sound.height_cast : (s.height.toNat : Int) = s.height :=
  Int.toNat_of_nonneg (Int.le_of_lt hs.height)

theorem Sound.length_pixels : s.pixels.length = s.height.toNat * s.width.toNat := by
  have harea : ((s.height.toNat * s.width.toNat : Nat) : Int) = s.width * s.height := by
    rw [Int.natCast_mul, hs.width_cast, hs.height_cast, Int.mul_comm]
  have hfilled : (s.bank.size : Int) = s.width * s.height := hs.filled
  rw [pixels, Array.length_toList]
  exact Int.ofNat.inj (hfilled.trans harea.symm)

theorem Sound.row_end {y : Nat} (hy : y < s.height.toNat) :
    y * s.width.toNat + s.width.toNat ≤ s.pixels.length := by
  rw [hs.length_pixels, ← Nat.succ_mul]
  exact Nat.mul_le_mul_right _ hy

theorem Sound.length_row {y : Nat} (hy : y < s.height.toNat) :
    (s.row y).length = s.width.toNat := by
  have hend := hs.row_end hy
  rw [row, List.length_take, List.length_drop]
  omega

/-- There is one row for each unit of the height, and each is read as one block. -/
theorem Sound.rows_eq : s.rows = .ok ((List.range s.height.toNat).map s.row) := by
  have hlength := hs.length_pixels
  rw [pixels, Array.length_toList] at hlength
  have hcount : min s.height.toNat (s.bank.size + 1) = s.height.toNat := by
    have hw := hs.width
    have hle := Nat.le_mul_of_pos_right s.height.toNat (by omega : 0 < s.width.toNat)
    unfold Ram.size
    omega
  rw [rows, hcount]
  refine mapM_eq_ok fun y hy => ?_
  have hend := hs.row_end (List.mem_range.mp hy)
  rw [pixels, Array.length_toList] at hend
  have hstart : (y : Int) * s.width = (y * s.width.toNat : Nat) := by
    rw [Int.natCast_mul, hs.width_cast]
  have hpos := hs.width
  obtain ⟨bytes, hread, hbytes⟩ :=
    (s.bank.readBlock_checksLast (y * s.width) s.width.toNat).done (by omega)
      ⟨by omega, by unfold Ram.size; omega⟩
  rw [hs.width_cast] at hread
  rw [hread, hbytes, row, hstart, Int.toNat_natCast]
  rfl

/-- A pixel is at its column in its row. -/
theorem Sound.getElem?_row {x y : Nat} (hx : x < s.width.toNat) (hy : y < s.height.toNat) :
    ∃ pixel, (s.row y)[x]? = some pixel ∧ s.pixel x y = .ok pixel := by
  have hq : s.frame.Contains (x, y) := by
    refine ⟨⟨Int.natCast_nonneg x, ?_⟩, Int.natCast_nonneg y, ?_⟩
    · show (x : Int) < s.width
      omega
    · show (y : Int) < s.height
      omega
  have hcell : s.frame.cellOf (x, y) = y * s.width.toNat + x := by
    have hplace : (y : Int) * s.width + x = (y * s.width.toNat + x : Nat) := by
      rw [Int.natCast_add, Int.natCast_mul, hs.width_cast]
    exact (congrArg Int.toNat hplace).trans (Int.toNat_natCast _)
  refine ⟨_, ?_, pixel_eq hs.filled hq⟩
  rw [row, List.getElem?_take_of_lt hx, List.getElem?_drop, pixels, Array.getElem?_toList, ← hcell]
  exact getElem?_cellOf hs.filled hq

end Sound

/-! ## Text -/

/-- Rows are those of a screen: as many as it is high, each as long as it is wide, and one after
another all of its pixels. -/
structure LaidOut (s : Screen) (rows : List (List UInt8)) : Prop where
  height : (rows.length : Int) = s.height
  width : ∀ row ∈ rows, (row.length : Int) = s.width
  pixels : rows.flatten = s.pixels

/-- Lines show a screen, with a character for the pixels that are on and one for those that are off:
the pixel in a column and a row is on exactly if the character there says so. -/
structure Shows (s : Screen) (on off : Char) (lines : List (List Char)) : Prop where
  height : (lines.length : Int) = s.height
  width : ∀ line ∈ lines, (line.length : Int) = s.width
  characters : ∀ x y : Nat, (x : Int) < s.width → (y : Int) < s.height →
    ∃ cs c, lines[y]? = some cs ∧ cs[x]? = some c ∧ (c = on ∨ c = off) ∧
      (c = on ↔ s.pixel x y = .ok 1)
  /-- The pixels are read back from the characters. -/
  pixels : (lines.flatten.map fun c => if c = on then 1 else 0) = s.pixels

/-- The character of a pixel. -/
def character (on off : Char) (pixel : UInt8) : Char := if pixel = 0 then off else on

theorem character_eq_on_iff {on off : Char} (hne : on ≠ off) (pixel : UInt8) :
    character on off pixel = on ↔ pixel ≠ 0 := by
  unfold character
  split
  · rename_i hzero
    exact ⟨fun h => absurd h.symm hne, fun h => absurd hzero h⟩
  · rename_i hzero
    exact ⟨fun _ => hzero, fun _ => rfl⟩

theorem Sound.laidOut {s : Screen} (hs : s.Sound) :
    s.LaidOut ((List.range s.height.toNat).map s.row) where
  height := by
    rw [List.length_map, List.length_range]
    exact hs.height_cast
  width := by
    intro row hrow
    obtain ⟨y, hy, rfl⟩ := List.mem_map.mp hrow
    rw [hs.length_row (List.mem_range.mp hy)]
    exact hs.width_cast
  pixels := by
    rw [flatten_rows, ← hs.length_pixels, List.take_length]

theorem toList_character (on off : Char) (pixel : UInt8) :
    (if pixel = 0 then (String.singleton off).toList else (String.singleton on).toList) =
      [character on off pixel] := by
  unfold character
  split
  · exact String.toList_singleton off
  · exact String.toList_singleton on

/-- A text has the rows as its lines, each pixel as its character. -/
theorem text_eq {s : Screen} {rows : List (List UInt8)} (h : s.rows = .ok rows) (on off : Char) :
    s.text (.singleton on) (.singleton off) =
      .ok (String.ofList (List.intercalate ['\n'] (rows.map (·.map (character on off))))) := by
  unfold text
  rw [h]
  simp only [toList_character, ← List.map_eq_flatMap]
  rfl

theorem fields_text {rows : List (List UInt8)} (hrows : rows ≠ []) {on off : Char}
    (hon : on ≠ '\n') (hoff : off ≠ '\n') :
    fields '\n' (List.intercalate ['\n'] (rows.map (·.map (character on off)))) =
      rows.map (·.map (character on off)) := by
  cases rows with
  | nil => exact absurd rfl hrows
  | cons row rows =>
    rw [List.map_cons]
    refine fields_intercalate fun line hline hnewline => ?_
    obtain ⟨row, -, rfl⟩ := List.mem_map.mp (List.map_cons ▸ hline)
    obtain ⟨pixel, -, hpixel⟩ := List.mem_map.mp hnewline
    unfold character at hpixel
    split at hpixel
    · exact hoff hpixel
    · exact hon hpixel

section Shows

variable {s : Screen} (hbinary : s.Binary) {on off : Char} (hne : on ≠ off)

include hbinary hne

theorem map_character_pixels :
    (s.pixels.map fun pixel => if character on off pixel = on then 1 else 0) = s.pixels := by
  conv_rhs => rw [← List.map_id s.pixels]
  refine List.map_congr_left fun pixel hmem => ?_
  rw [if_congr (character_eq_on_iff hne pixel) rfl rfl]
  rcases hbinary pixel (Array.mem_toList_iff.mp hmem) with rfl | rfl
  · rfl
  · rfl

/-- The character in a column and a row is that of the pixel there. -/
theorem Sound.getElem?_characters (hs : s.Sound) {x y : Nat} (hx : x < s.width.toNat)
    (hy : y < s.height.toNat) :
    ∃ c, ((s.row y).map (character on off))[x]? = some c ∧ (c = on ∨ c = off) ∧
      (c = on ↔ s.pixel x y = .ok 1) := by
  obtain ⟨pixel, hget, hpixel⟩ := hs.getElem?_row hx hy
  have hmem : pixel ∈ s.pixels :=
    List.mem_of_mem_drop (List.mem_of_mem_take (List.mem_of_getElem? hget))
  refine ⟨character on off pixel, ?_, ?_, ?_⟩
  · rw [List.getElem?_map, hget]
    rfl
  · exact (ite_eq_or_eq (pixel = 0) off on).symm
  · rw [character_eq_on_iff hne, hpixel]
    rcases hbinary pixel (Array.mem_toList_iff.mp hmem) with rfl | rfl
    · decide
    · decide

/-- The characters of the rows show a screen whose pixels are 0 or 1. -/
theorem Sound.shows (hs : s.Sound) {rows : List (List UInt8)} (h : s.rows = .ok rows) :
    s.Shows on off (rows.map (·.map (character on off))) := by
  cases hs.rows_eq.symm.trans h
  have hlaid := hs.laidOut
  refine ⟨?_, ?_, ?_, ?_⟩
  · rw [List.length_map]
    exact hlaid.height
  · intro line hline
    obtain ⟨row, hrow, rfl⟩ := List.mem_map.mp hline
    rw [List.length_map]
    exact hlaid.width row hrow
  · intro x y hx hy
    rw [← hs.width_cast, Int.ofNat_lt] at hx
    rw [← hs.height_cast, Int.ofNat_lt] at hy
    obtain ⟨c, hc⟩ := hs.getElem?_characters hbinary hne hx hy
    refine ⟨_, c, ?_, hc⟩
    rw [List.getElem?_map, List.getElem?_map, List.getElem?_range hy]
    rfl
  · rw [← List.map_flatten, hlaid.pixels, List.map_map]
    exact map_character_pixels hbinary hne

end Shows

/-- After any drawing on a screen of any size, calls that fail included, the rows are as many as the
screen is high, each as long as it is wide, and one after another all of its pixels. The lines of
the text show the pixels, whichever two characters stand for those that are on and those that are
off. -/
theorem text_shows_pixels [Capacity] {s : Screen} (hs : s.Sound) (hbinary : s.Binary)
    {calls : List Panel.Call} (hcalls : ∀ width height, .resize width height ∉ calls) :
    ∀ t, t = s.after calls →
      t.width = s.width ∧ t.height = s.height ∧
      (∃ rows, t.rows = .ok rows ∧ t.LaidOut rows) ∧
      ∀ on off : Char, on ≠ off → on ≠ '\n' → off ≠ '\n' →
        ∃ text, t.text (.singleton on) (.singleton off) = .ok text ∧
          t.Shows on off (fields '\n' text.toList) := by
  rintro t rfl
  obtain ⟨hframe, hbinary⟩ := after_draws hbinary hcalls
  have hsound := sound_of_frame hframe hs
  have hrows := hsound.rows_eq
  refine ⟨congrArg Frame.width hframe, congrArg Frame.height hframe,
    ⟨_, hrows, hsound.laidOut⟩, fun on off hne hon hoff => ⟨_, text_eq hrows on off, ?_⟩⟩
  have hheight := hsound.height
  have hne_nil : (List.range (s.after calls).height.toNat).map (s.after calls).row ≠ [] := by
    rw [Ne, List.map_eq_nil_iff, List.range_eq_nil]
    omega
  rw [String.toList_ofList, fields_text hne_nil hon hoff]
  exact hsound.shows hbinary hne hrows

/-- A screen of one column, whose rows end where they begin. -/
def column : Screen := ⟨1, 3, false, ⟨#[0, 1, 0]⟩⟩

/-- A flip of the first pixel, one that strays from the last row into the one above, and one that
fails. -/
def strayFlips : List Panel.Call := [.xorPixel 0 0, .xorPixel (-1) 2, .xorPixel 0 (-1)]

attribute [local instance] Capacity.least in
theorem text_shows_pixels_column :
    column.Sound ∧ column.Binary ∧ (∀ width height, .resize width height ∉ strayFlips) ∧
      (column.after strayFlips).pixels = [1, 0, 0] ∧
      ∃ text, (column.after strayFlips).text (.singleton '#') (.singleton '.') = .ok text ∧
        (column.after strayFlips).Shows '#' '.' (fields '\n' text.toList) := by
  have hs : column.Sound := ⟨by decide, by decide, rfl⟩
  have hbinary : column.Binary := by simp [Binary, column]
  have hcalls : ∀ width height, Panel.Call.resize width height ∉ strayFlips := by
    simp [strayFlips]
  have htext := (text_shows_pixels hs hbinary hcalls _ rfl).2.2.2
  exact ⟨hs, hbinary, hcalls, rfl, htext '#' '.' (by decide) (by decide) (by decide)⟩

end Chip8.Screen
