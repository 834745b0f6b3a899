/-
  Drawing as the flipping of cells. A point right of and below the corner is clipped or has a place
  on the screen, which the frame alone decides, and drawing flips the cells of the places one after
  another (`draw_eq`). A cell ends up flipped exactly if it was met an odd number of times
  (`getElem?_flips`). Where no cell is met twice, the collision says whether one of them was on
  before (`draw_collision`).
-/
import Chip8.Proofs.Drawing
import Mathlib.Data.List.Nodup
namespace Chip8.Screen

/-! ## Places -/

namespace Frame

/-- The place of a point on the screen, unless the point is clipped. -/
def place? (f : Frame) (p : Int × Int) : Option (Int × Int) :=
  if f.wraps then some (p.1 % f.width, p.2 % f.height)
  else if p.1 < f.width ∧ p.2 < f.height then some p
  else none

/-- The cell of a place. -/
def cellOf (f : Frame) (q : Int × Int) : Nat := (q.2 * f.width + q.1).toNat

/-- The cells of the places of some points, in turn. -/
def cellsOf (f : Frame) (points : List (Int × Int)) : List Nat :=
  (points.filterMap f.place?).map f.cellOf

/-- A place lies on the screen. -/
def Contains (f : Frame) (q : Int × Int) : Prop :=
  (0 ≤ q.1 ∧ q.1 < f.width) ∧ 0 ≤ q.2 ∧ q.2 < f.height

instance (f : Frame) (q : Int × Int) : Decidable (f.Contains q) :=
  inferInstanceAs (Decidable (_ ∧ _))

variable {f : Frame}

theorem cellsOf_clipped {p : Int × Int} (h : f.place? p = none) (points : List (Int × Int)) :
    f.cellsOf (p :: points) = f.cellsOf points := by
  simp only [cellsOf, List.filterMap_cons, h]

theorem cellsOf_placed {p q : Int × Int} (h : f.place? p = some q) (points : List (Int × Int)) :
    f.cellsOf (p :: points) = f.cellOf q :: f.cellsOf points := by
  simp only [cellsOf, List.filterMap_cons, h, List.map_cons]

theorem contains_of_place? (hw : 0 < f.width) (hh : 0 < f.height) {p q : Int × Int}
    (hp : 0 ≤ p.1 ∧ 0 ≤ p.2) (h : f.place? p = some q) : f.Contains q := by
  unfold place? at h
  split at h
  · cases h
    exact ⟨⟨Int.emod_nonneg _ (by omega), Int.emod_lt_of_pos _ hw⟩,
      Int.emod_nonneg _ (by omega), Int.emod_lt_of_pos _ hh⟩
  · split at h
    · rename_i hin
      cases h
      exact ⟨⟨hp.1, hin.1⟩, hp.2, hin.2⟩
    · cases h

/-- A place on the screen is told by the number of its cell. -/
theorem cellOf_injective {q r : Int × Int} (hq : f.Contains q) (hr : f.Contains r)
    (h : f.cellOf q = f.cellOf r) : q = r := by
  obtain ⟨⟨hq0, hqw⟩, hq2, -⟩ := hq
  obtain ⟨⟨hr0, hrw⟩, hr2, -⟩ := hr
  have hqrow := Int.mul_nonneg hq2 (by omega : 0 ≤ f.width)
  have hrrow := Int.mul_nonneg hr2 (by omega : 0 ≤ f.width)
  have hcell : q.2 * f.width + q.1 = r.2 * f.width + r.1 := by
    unfold cellOf at h
    omega
  have hcolumn : q.1 = r.1 := by
    have hmod := congrArg (· % f.width) hcell
    simp only [Int.mul_add_emod_self_right, Int.emod_eq_of_lt hq0 hqw,
      Int.emod_eq_of_lt hr0 hrw] at hmod
    exact hmod
  have hrow : q.2 = r.2 := by
    rw [hcolumn] at hcell
    exact Int.eq_of_mul_eq_mul_right (by omega : f.width ≠ 0) (by omega)
  exact Prod.ext hcolumn hrow

/-- Some point has its place there. -/
def Hits (f : Frame) (points : List (Int × Int)) (q : Int × Int) : Prop :=
  ∃ p ∈ points, f.place? p = some q

theorem mem_cellsOf_iff {points : List (Int × Int)} {k : Nat} :
    k ∈ f.cellsOf points ↔ ∃ q, f.Hits points q ∧ f.cellOf q = k := by
  simp only [cellsOf, List.mem_map, List.mem_filterMap, Hits]

section Points

variable (hw : 0 < f.width) (hh : 0 < f.height) {points : List (Int × Int)}
  (hp : ∀ p ∈ points, 0 ≤ p.1 ∧ 0 ≤ p.2)

include hw hh hp

theorem contains_of_hits {q : Int × Int} (h : f.Hits points q) : f.Contains q := by
  obtain ⟨p, hmem, hq⟩ := h
  exact contains_of_place? hw hh (hp p hmem) hq

/-- The cell of a place is among those of the points if some point has that place. -/
theorem cellOf_mem_cellsOf_iff {q : Int × Int} (hq : f.Contains q) :
    f.cellOf q ∈ f.cellsOf points ↔ f.Hits points q := by
  rw [mem_cellsOf_iff]
  constructor
  · rintro ⟨r, hr, hcell⟩
    rw [← cellOf_injective (contains_of_hits hw hh hp hr) hq hcell]
    exact hr
  · intro h
    exact ⟨q, h, rfl⟩

/-- Points that all have different places, if they have any, meet no cell twice. -/
theorem nodup_cellsOf (hnodup : points.Nodup)
    (hplace : ∀ p ∈ points, ∀ p' ∈ points, ∀ q, f.place? p = some q → f.place? p' = some q →
      p = p') : (f.cellsOf points).Nodup := by
  rw [cellsOf, List.Nodup, List.pairwise_map, List.pairwise_filterMap]
  refine List.Pairwise.imp_of_mem ?_ hnodup
  intro p p' hmem hmem' hne q hq q' hq' hcell
  have hsame := cellOf_injective (contains_of_place? hw hh (hp p hmem) hq)
    (contains_of_place? hw hh (hp p' hmem') hq') hcell
  rw [← hsame] at hq'
  exact hne (hplace p hmem p' hmem' q hq hq')

end Points

end Frame

/-! ## Flips -/

/-- The cells with the last bit of one of them flipped. -/
def flip (cells : Array UInt8) (k : Nat) : Array UInt8 :=
  cells.setIfInBounds k (cells.getD k 0 ^^^ 1)

theorem size_flip (cells : Array UInt8) (k : Nat) : (flip cells k).size = cells.size := by
  rw [flip, Array.size_setIfInBounds]

theorem getElem?_flip (cells : Array UInt8) (k j : Nat) :
    (flip cells k)[j]? = if k = j then cells[j]?.map (· ^^^ 1) else cells[j]? := by
  rw [flip, Array.getElem?_setIfInBounds]
  by_cases hkj : k = j
  · subst hkj
    rw [if_pos rfl, if_pos rfl, Array.getD_eq_getD_getElem?]
    by_cases hk : k < cells.size
    · rw [if_pos hk, Array.getElem?_eq_getElem hk]
      rfl
    · rw [if_neg hk, Array.getElem?_eq_none (by omega)]
      rfl
  · rw [if_neg hkj, if_neg hkj]

theorem flip_twice (b : UInt8) : b ^^^ 1 ^^^ 1 = b := by
  rw [UInt8.xor_assoc, UInt8.xor_self, UInt8.xor_zero]

/-- A cell is flipped in the end if it was met an odd number of times. -/
theorem getElem?_flips (cells : Array UInt8) (ks : List Nat) (j : Nat) :
    (ks.foldl flip cells)[j]? =
      cells[j]?.map fun b => if ks.count j % 2 = 1 then b ^^^ 1 else b := by
  induction ks generalizing cells with
  | nil => simp
  | cons k ks ih =>
    rw [List.foldl_cons, ih, getElem?_flip]
    by_cases hkj : k = j
    · subst hkj
      rw [if_pos rfl, Option.map_map, List.count_cons_self]
      congr 1
      funext b
      rw [Function.comp_apply, flip_twice]
      by_cases hodd : ks.count k % 2 = 1
      · rw [if_pos hodd, if_neg (by omega)]
      · rw [if_neg hodd, if_pos (by omega)]
    · rw [if_neg hkj, List.count_cons_of_ne hkj]

/-- Where no cell is met twice, those that were met are flipped. -/
theorem getElem?_flips_of_nodup (cells : Array UInt8) {ks : List Nat} (h : ks.Nodup) (j : Nat) :
    (ks.foldl flip cells)[j]? = cells[j]?.map fun b => if j ∈ ks then b ^^^ 1 else b := by
  rw [getElem?_flips]
  by_cases hj : j ∈ ks
  · rw [List.count_eq_one_of_mem h hj]
    simp only [hj, if_true]
  · rw [List.count_eq_zero_of_not_mem hj]
    simp only [hj, if_false, Nat.zero_mod, Nat.zero_ne_one]

/-! ## Flipped screens -/

/-- The screen with one cell flipped. -/
def flipAt (s : Screen) (k : Nat) : Screen := { s with bank := ⟨flip s.bank.cells k⟩ }

theorem frame_flipAt (s : Screen) (k : Nat) : (s.flipAt k).frame = s.frame := by
  simp only [frame, flipAt, Ram.size, size_flip]

theorem binary_flipAt {s : Screen} (hs : s.Binary) (k : Nat) : (s.flipAt k).Binary := by
  intro b hb
  obtain ⟨j, hj⟩ := Array.mem_iff_getElem?.mp hb
  have hflip : (flip s.bank.cells k)[j]? = some b := hj
  rw [getElem?_flip] at hflip
  split at hflip
  · obtain ⟨a, ha, rfl⟩ := Option.map_eq_some_iff.mp hflip
    rcases hs a (Array.mem_of_getElem? ha) with rfl | rfl
    · exact Or.inr rfl
    · exact Or.inl rfl
  · exact hs b (Array.mem_of_getElem? hflip)

/-! ## Drawing -/

/-- A column and a row inside given dimensions make the number of a cell. -/
theorem cell_bounds {width height c r : Int} (hc : 0 ≤ c) (hcw : c < width) (hr : 0 ≤ r)
    (hrh : r < height) : 0 ≤ r * width + c ∧ r * width + c < height * width := by
  have hpos : 0 ≤ r * width := Int.mul_nonneg hr (by omega)
  have hle : (r + 1) * width ≤ height * width :=
    Int.mul_le_mul_of_nonneg_right (by omega) (by omega)
  rw [Int.add_mul, Int.one_mul] at hle
  omega

section Filled

variable {s : Screen} (hs : s.Filled) {q : Int × Int} (hq : s.frame.Contains q)

include hs hq

theorem check_cellOf : s.bank.check (q.2 * s.width + q.1) = .ok () := by
  obtain ⟨⟨hc, hcw⟩, hr, hrh⟩ := hq
  rw [Ram.check_eq_ok_iff, hs, area, Int.mul_comm s.width]
  exact cell_bounds hc hcw hr hrh

theorem getElem?_cellOf : s.bank.cells[s.frame.cellOf q]? =
    some (s.bank.cells.getD (s.frame.cellOf q) 0) := by
  obtain ⟨hlow, hhigh⟩ := Ram.check_eq_ok_iff.mp (check_cellOf hs hq)
  have hcell : s.frame.cellOf q < s.bank.cells.size := by
    dsimp only [Frame.cellOf, frame, Ram.size] at hhigh ⊢
    omega
  rw [Array.getD_eq_getD_getElem?, Array.getElem?_eq_getElem hcell]
  rfl

/-- The pixel of a place is its cell. -/
theorem pixel_eq : s.pixel q.1 q.2 = .ok (s.bank.cells.getD (s.frame.cellOf q) 0) := by
  simp only [pixel, Ram.read, check_cellOf hs hq, bind, Except.bind]
  rfl

/-- A point that is located at the cell of a place flips that cell. -/
theorem xorPixel_of_locate {p : Int × Int}
    (hp : s.locate p.1 p.2 = .ok (some (q.2 * s.width + q.1))) :
    s.xorPixel p.1 p.2 =
      .ok (some (s.bank.cells.getD (s.frame.cellOf q) 0), s.flipAt (s.frame.cellOf q)) := by
  rw [xorPixel, hp]
  simp only [bind, Except.bind, Ram.read, Ram.store, check_cellOf hs hq, pure, Except.pure]
  rfl

end Filled

section Draw

variable {s : Screen} (hw : 0 < s.width) (hh : 0 < s.height)

include hw hh

theorem locate_eq (p : Int × Int) :
    s.locate p.1 p.2 = .ok ((s.frame.place? p).map fun q => q.2 * s.width + q.1) := by
  have hcolumn := Int.fmod_eq_emod_of_nonneg p.1 (Int.le_of_lt hw)
  have hrow := Int.fmod_eq_emod_of_nonneg p.2 (Int.le_of_lt hh)
  dsimp only [locate, Frame.place?, frame]
  by_cases hwrap : s.wraps = true
  · rw [if_pos hwrap, if_neg (by omega), if_pos hwrap, hcolumn, hrow]
    rfl
  · rw [if_neg hwrap, if_neg hwrap]
    by_cases hin : p.1 < s.width ∧ p.2 < s.height
    · rw [if_neg (by omega), if_pos hin]
      rfl
    · rw [if_pos (by omega), if_neg hin]
      rfl

/-- A point that is clipped changes nothing; any other flips the cell of its place. -/
theorem xorPixel_eq (hs : s.Filled) {p : Int × Int} (hp : 0 ≤ p.1 ∧ 0 ≤ p.2) :
    s.xorPixel p.1 p.2 = .ok (match s.frame.place? p with
      | none => (none, s)
      | some q =>
        (some (s.bank.cells.getD (s.frame.cellOf q) 0), s.flipAt (s.frame.cellOf q))) := by
  have hlocate := locate_eq hw hh p
  cases hq : s.frame.place? p with
  | none =>
    rw [hq] at hlocate
    rw [xorPixel, hlocate]
    rfl
  | some q =>
    rw [hq] at hlocate
    exact xorPixel_of_locate hs (Frame.contains_of_place? hw hh hp hq) hlocate

theorem draw_clipped (hs : s.Filled) (collision : UInt8) {p : Int × Int}
    (hp : 0 ≤ p.1 ∧ 0 ≤ p.2) (h : s.frame.place? p = none) (points : List (Int × Int)) :
    s.draw collision (p :: points) = s.draw collision points := by
  have hfirst := xorPixel_eq hw hh hs hp
  rw [h] at hfirst
  simp only [draw, hfirst, Option.getD_none, UInt8.or_zero]

theorem draw_placed (hs : s.Filled) (collision : UInt8) {p q : Int × Int}
    (hp : 0 ≤ p.1 ∧ 0 ≤ p.2) (h : s.frame.place? p = some q) (points : List (Int × Int)) :
    s.draw collision (p :: points) = (s.flipAt (s.frame.cellOf q)).draw
      (collision ||| s.bank.cells.getD (s.frame.cellOf q) 0) points := by
  have hfirst := xorPixel_eq hw hh hs hp
  rw [h] at hfirst
  simp only [draw, hfirst, Option.getD_some]

/-- Drawing flips the cells of the places of the points, and does not fail. -/
theorem draw_eq (hs : s.Filled) (collision : UInt8) {points : List (Int × Int)}
    (hp : ∀ p ∈ points, 0 ≤ p.1 ∧ 0 ≤ p.2) :
    (s.draw collision points).failure = none ∧
      (s.draw collision points).screen =
        { s with bank := ⟨(s.frame.cellsOf points).foldl flip s.bank.cells⟩ } := by
  induction points generalizing s collision with
  | nil => exact ⟨rfl, rfl⟩
  | cons p points ih =>
    have hfirst := hp p List.mem_cons_self
    have hrest : ∀ p ∈ points, 0 ≤ p.1 ∧ 0 ≤ p.2 := fun q hq => hp q (List.mem_cons_of_mem p hq)
    cases hq : s.frame.place? p with
    | none =>
      rw [draw_clipped hw hh hs collision hfirst hq, Frame.cellsOf_clipped hq]
      exact ih hw hh hs collision hrest
    | some q =>
      have hframe := s.frame_flipAt (s.frame.cellOf q)
      rw [draw_placed hw hh hs collision hfirst hq, Frame.cellsOf_placed hq, ← hframe]
      exact ih (s := s.flipAt _) hw hh (filled_of_frame hframe hs) _ hrest

/-- Where no cell is met twice, the collision says whether one of them was on before. -/
theorem draw_collision (hs : s.Filled) (hbinary : s.Binary) {collision : UInt8}
    (hc : collision = 0 ∨ collision = 1) {points : List (Int × Int)}
    (hp : ∀ p ∈ points, 0 ≤ p.1 ∧ 0 ≤ p.2) (hnodup : (s.frame.cellsOf points).Nodup) :
    (s.draw collision points).collision =
      if collision = 1 ∨ ∃ k ∈ s.frame.cellsOf points, s.bank.cells[k]? = some 1 then 1 else 0 := by
  induction points generalizing s collision with
  | nil =>
    rcases hc with rfl | rfl
    · rfl
    · rfl
  | cons p points ih =>
    have hfirst := hp p List.mem_cons_self
    have hrest : ∀ p ∈ points, 0 ≤ p.1 ∧ 0 ≤ p.2 := fun q hq => hp q (List.mem_cons_of_mem p hq)
    cases hq : s.frame.place? p with
    | none =>
      rw [draw_clipped hw hh hs collision hfirst hq]
      rw [Frame.cellsOf_clipped hq] at hnodup ⊢
      exact ih hw hh hs hbinary hc hrest hnodup
    | some q =>
      rw [draw_placed hw hh hs collision hfirst hq]
      rw [Frame.cellsOf_placed hq] at hnodup ⊢
      obtain ⟨hnew, hnodup⟩ := List.nodup_cons.mp hnodup
      have hframe := s.frame_flipAt (s.frame.cellOf q)
      have hcell := getElem?_cellOf hs (Frame.contains_of_place? hw hh hfirst hq)
      generalize s.bank.cells.getD (s.frame.cellOf q) 0 = prior at hcell ⊢
      have hprior := hbinary prior (Array.mem_of_getElem? hcell)
      have hor : collision ||| prior = 0 ∨ collision ||| prior = 1 := by
        rcases hc with rfl | rfl <;> rcases hprior with rfl | rfl <;> decide
      have hone : collision ||| prior = 1 ↔ collision = 1 ∨ prior = 1 := by
        rcases hc with rfl | rfl <;> rcases hprior with rfl | rfl <;> decide
      -- the cells that are still to come have not been flipped yet
      have hkept : ∀ k ∈ s.frame.cellsOf points,
          (s.flipAt (s.frame.cellOf q)).bank.cells[k]? = s.bank.cells[k]? := by
        intro k hk
        have hne : s.frame.cellOf q ≠ k := fun h => hnew (h ▸ hk)
        exact (getElem?_flip _ _ k).trans (if_neg hne)
      have hlater : (∃ k ∈ s.frame.cellsOf points,
          (s.flipAt (s.frame.cellOf q)).bank.cells[k]? = some 1) ↔
            ∃ k ∈ s.frame.cellsOf points, s.bank.cells[k]? = some 1 :=
        exists_congr fun k => and_congr_right fun hk => by rw [hkept k hk]
      rw [ih (s := s.flipAt _) hw hh (filled_of_frame hframe hs) (binary_flipAt hbinary _) hor hrest
        (by rw [hframe]; exact hnodup), hframe]
      simp only [hlater, hone, List.mem_cons, exists_eq_or_imp, hcell, Option.some.injEq, or_assoc]

section Pixels

variable (hs : s.Filled) {points : List (Int × Int)} (hp : ∀ p ∈ points, 0 ≤ p.1 ∧ 0 ≤ p.2)
  (hnodup : (s.frame.cellsOf points).Nodup)

include hs hp hnodup

/-- Where no cell is met twice, the pixels that the points hit are flipped. -/
theorem pixel_draw (collision : UInt8) {q : Int × Int} (hq : s.frame.Contains q) :
    ∃ b, s.pixel q.1 q.2 = .ok b ∧ (s.draw collision points).screen.pixel q.1 q.2 =
      .ok (if s.frame.cellOf q ∈ s.frame.cellsOf points then b ^^^ 1 else b) := by
  have hframe := s.draw_frame collision points
  have hafter := pixel_eq (filled_of_frame hframe hs) (q := q) (by rw [hframe]; exact hq)
  refine ⟨_, pixel_eq hs hq, ?_⟩
  rw [hafter, hframe, (draw_eq hw hh hs collision hp).2, Array.getD_eq_getD_getElem?,
    getElem?_flips_of_nodup s.bank.cells hnodup, getElem?_cellOf hs hq]
  rfl

/-- Where no cell is met twice, the collision says whether a pixel that was hit was on. -/
theorem collision_draw (hbinary : s.Binary) :
    ((∃ q, s.frame.Hits points q ∧ s.pixel q.1 q.2 = .ok 1) → (s.draw 0 points).collision = 1) ∧
    ((¬ ∃ q, s.frame.Hits points q ∧ s.pixel q.1 q.2 = .ok 1) →
      (s.draw 0 points).collision = 0) := by
  have hcells : (∃ k ∈ s.frame.cellsOf points, s.bank.cells[k]? = some 1) ↔
      ∃ q, s.frame.Hits points q ∧ s.pixel q.1 q.2 = .ok 1 := by
    have hcell : ∀ q, s.frame.Hits points q →
        (s.bank.cells[s.frame.cellOf q]? = some 1 ↔ s.pixel q.1 q.2 = .ok 1) := by
      intro q hit
      have hq := Frame.contains_of_hits hw hh hp hit
      rw [getElem?_cellOf hs hq, pixel_eq hs hq, Option.some.injEq, Except.ok.injEq]
    constructor
    · rintro ⟨k, hk, hon⟩
      obtain ⟨q, hit, rfl⟩ := Frame.mem_cellsOf_iff.mp hk
      exact ⟨q, hit, (hcell q hit).mp hon⟩
    · rintro ⟨q, hit, hon⟩
      exact ⟨_, Frame.mem_cellsOf_iff.mpr ⟨q, hit, rfl⟩, (hcell q hit).mpr hon⟩
  have hcollision := draw_collision hw hh hs hbinary (Or.inl rfl) hp hnodup
  have hzero : ¬ (0 : UInt8) = 1 := by decide
  rw [← hcells]
  constructor
  · intro h
    rw [hcollision, if_pos (Or.inr h)]
  · intro h
    rw [hcollision, if_neg (not_or.mpr ⟨hzero, h⟩)]

end Pixels

end Draw

end Chip8.Screen
