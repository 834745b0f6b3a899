/-
  A draw puts exactly its sprite on the screen. A pixel lies under the bit of the sprite that has
  the distances of the pixel from Vx and Vy, which are counted around the screen; on a screen that
  clips, a pixel left of or above the corner lies under no bit (`Machine.Covers`). On a screen with
  room for a whole sprite no two bits of a sprite have one place, so that a draw flips the pixels
  under the bits that are set, and VF says whether one of them was on (`draw_law`).
-/
import Chip8.Proofs.Atomicity
namespace Chip8

namespace Machine

/-! ## The bits of a sprite -/

/-- The sprite of some rows at I has a bit in a column and a row, and the bit is set. -/
def SpriteBit (m : Machine) (rows : Nat) (dx dy : Int) : Prop :=
  dx < 8 ∧ dy < rows ∧ (m.byteAt (m.index + dy)).toNat.testBit (7 - dx.toNat) = true

/-- A pixel on the screen lies under a bit that is set, of a sprite with its corner at Vx and Vy. -/
def Covers (m : Machine) (x y : Register) (rows : Nat) (c r : Int) : Prop :=
  m.SpriteBit rows ((c - (m.reg x).toNat) % m.screen.width)
      ((r - (m.reg y).toNat) % m.screen.height) ∧
    (m.screen.wraps = false →
      (m.reg x).toNat % m.screen.width ≤ c ∧ (m.reg y).toNat % m.screen.height ≤ r)

instance (m : Machine) (rows : Nat) (dx dy : Int) : Decidable (m.SpriteBit rows dx dy) :=
  inferInstanceAs (Decidable (_ ∧ _ ∧ _))

instance (m : Machine) (x y : Register) (rows : Nat) (c r : Int) :
    Decidable (m.Covers x y rows c r) :=
  inferInstanceAs (Decidable (_ ∧ _))

variable (m : Machine)

theorem mem_spritePoints_iff {x y : Int} {rows : Nat} {p : Int × Int} :
    p ∈ m.spritePoints x y rows ↔
      ∃ dx dy : Nat, p = (x + dx, y + dy) ∧ m.SpriteBit rows dx dy := by
  simp only [spritePoints, spriteColumns, SpriteBit, List.mem_flatMap, List.mem_map,
    List.mem_filter, List.mem_range, Int.toNat_natCast, Int.ofNat_lt]
  constructor
  · rintro ⟨dy, hdy, dx, ⟨hdx, hbit⟩, rfl⟩
    exact ⟨dx, dy, rfl, by omega, hdy, hbit⟩
  · rintro ⟨dx, dy, rfl, hdx, hdy, hbit⟩
    exact ⟨dy, hdy, dx, ⟨by omega, hbit⟩, rfl⟩

theorem nodup_spritePoints (x y : Int) (rows : Nat) : (m.spritePoints x y rows).Nodup := by
  rw [spritePoints, List.nodup_flatMap]
  constructor
  · intro dy _
    refine List.Nodup.map ?_ (List.Nodup.filter _ List.nodup_range)
    intro dx dx' h
    have hcolumn := congrArg Prod.fst h
    dsimp only at hcolumn
    omega
  · refine List.nodup_range.imp ?_
    intro dy dy' hne
    refine List.disjoint_left.mpr ?_
    intro p hp hp'
    obtain ⟨dx, -, rfl⟩ := List.mem_map.mp hp
    obtain ⟨dx', -, h⟩ := List.mem_map.mp hp'
    have hrow := congrArg Prod.snd h
    dsimp only at hrow
    omega

end Machine

/-! ## Where a bit is put -/

/-- Going some way from a start, around a circle, leads to a place that has this distance. -/
theorem emod_add_emod_eq_iff {a c d w : Int} (hc : 0 ≤ c ∧ c < w) (hd : 0 ≤ d ∧ d < w) :
    (a % w + d) % w = c ↔ (c - a) % w = d := by
  rw [Int.emod_add_emod]
  constructor
  · rintro rfl
    have hdistance : a + d - a = d := by omega
    rw [Int.emod_sub_emod, hdistance, Int.emod_eq_of_lt hd.1 hd.2]
  · rintro rfl
    have hplace : a + (c - a) = c := by omega
    rw [Int.add_emod_emod, hplace, Int.emod_eq_of_lt hc.1 hc.2]

/-- Going straight on leads to a place that has this distance and does not lie before the start. -/
theorem emod_add_eq_iff {a c d w : Int} (hc : 0 ≤ c ∧ c < w) (hd : 0 ≤ d) :
    a % w + d = c ↔ (c - a) % w = d ∧ a % w ≤ c := by
  have hstart := Int.emod_nonneg a (by omega : w ≠ 0)
  rw [← Int.sub_emod_emod]
  constructor
  · rintro rfl
    have hdistance : a % w + d - a % w = d := by omega
    rw [hdistance]
    exact ⟨Int.emod_eq_of_lt hd (by omega), by omega⟩
  · rintro ⟨hdistance, hle⟩
    rw [Int.emod_eq_of_lt (by omega) (by omega)] at hdistance
    omega

namespace Screen.Frame

variable {f : Frame}

/-- A point at a distance from a corner has the place on the screen that lies at this distance from
the corner; on a screen that clips, the place also lies right of and below the corner. -/
theorem place?_eq_some_iff {x y dx dy : Int} {q : Int × Int} (hq : f.Contains q)
    (hdx : 0 ≤ dx ∧ dx < f.width) (hdy : 0 ≤ dy ∧ dy < f.height) :
    f.place? (x % f.width + dx, y % f.height + dy) = some q ↔
      ((q.1 - x) % f.width = dx ∧ (q.2 - y) % f.height = dy) ∧
        (f.wraps = false → x % f.width ≤ q.1 ∧ y % f.height ≤ q.2) := by
  obtain ⟨c, r⟩ := q
  obtain ⟨hc, hr⟩ := hq
  dsimp only [place?] at hc hr ⊢
  by_cases hwrap : f.wraps = true
  · rw [if_pos hwrap, Option.some.injEq, Prod.mk.injEq, emod_add_emod_eq_iff hc hdx,
      emod_add_emod_eq_iff hr hdy]
    simp only [hwrap, Bool.true_eq_false, false_imp_iff, and_true]
  · rw [if_neg hwrap]
    have hclip : f.wraps = false := by
      rw [Bool.not_eq_true] at hwrap
      exact hwrap
    have hcolumn := emod_add_eq_iff (a := x) hc hdx.1
    have hrow := emod_add_eq_iff (a := y) hr hdy.1
    constructor
    · intro h
      split at h
      · rw [Option.some.injEq, Prod.mk.injEq, hcolumn, hrow] at h
        exact ⟨⟨h.1.1, h.2.1⟩, fun _ => ⟨h.1.2, h.2.2⟩⟩
      · cases h
    · rintro ⟨⟨hx, hy⟩, hafter⟩
      obtain ⟨hleft, habove⟩ := hafter hclip
      rw [hcolumn.mpr ⟨hx, hleft⟩, hrow.mpr ⟨hy, habove⟩, if_pos ⟨hc.2, hr.2⟩]

end Screen.Frame

namespace Machine

/-! ## A draw -/

/-- The points that a draw meets. -/
def drawnPoints (m : Machine) (x y : Register) (rows : Nat) : List (Int × Int) :=
  m.spritePoints ((m.reg x).toNat % m.screen.width) ((m.reg y).toNat % m.screen.height) rows

variable {m : Machine} (hs : m.screen.Sound) (x y : Register) (rows : Nat)

include hs in
theorem drawnPoints_nonneg : ∀ p ∈ m.drawnPoints x y rows, 0 ≤ p.1 ∧ 0 ≤ p.2 := by
  have hw := hs.width
  have hh := hs.height
  exact spritePoints_nonneg (Int.emod_nonneg _ (by omega)) (Int.emod_nonneg _ (by omega)) rows

include hs in
/-- A draw flips the pixels at its points, and VF receives the collision. -/
theorem drawSprite_drawn (d : Dialect) :
    m.drawSprite d x y rows =
      ⟨{ m.setFlag (m.screen.draw 0 (m.drawnPoints x y rows)).collision with
          screen := (m.screen.draw 0 (m.drawnPoints x y rows)).screen
          counter := m.counter + 2
          awaitingBlank := m.awaitingBlank || d.drawEndsFrame }, none⟩ := by
  have hw := hs.width
  have hh := hs.height
  have hfailure := (Screen.draw_eq hw hh hs.filled 0 (drawnPoints_nonneg hs x y rows)).1
  have hcolumn := Int.fmod_eq_emod_of_nonneg ((m.reg x).toNat : Int) (Int.le_of_lt hw)
  have hrow := Int.fmod_eq_emod_of_nonneg ((m.reg y).toNat : Int) (Int.le_of_lt hh)
  unfold drawnPoints at hfailure ⊢
  simp only [drawSprite, hcolumn, hrow]
  rw [if_neg (by omega), hfailure]
  rfl

section Room

variable (hw : 8 ≤ m.screen.width) (hh : 15 ≤ m.screen.height) (hrows : rows ≤ 15)

include hw hh hrows

theorem place?_drawn {q : Int × Int} (hq : m.screen.frame.Contains q) {dx dy : Nat}
    (hbit : m.SpriteBit rows dx dy) :
    m.screen.frame.place? ((m.reg x).toNat % m.screen.width + dx,
        (m.reg y).toNat % m.screen.height + dy) = some q ↔
      ((q.1 - (m.reg x).toNat) % m.screen.width = dx ∧
        (q.2 - (m.reg y).toNat) % m.screen.height = dy) ∧
        (m.screen.wraps = false →
          (m.reg x).toNat % m.screen.width ≤ q.1 ∧ (m.reg y).toNat % m.screen.height ≤ q.2) := by
  obtain ⟨hdx, hdy, -⟩ := hbit
  exact Screen.Frame.place?_eq_some_iff hq ⟨by omega, by dsimp only [Screen.frame]; omega⟩
    ⟨by omega, by dsimp only [Screen.frame]; omega⟩

/-- On a screen with room for a whole sprite, a draw hits the pixels that the sprite covers. -/
theorem hits_drawn_iff {q : Int × Int} (hq : m.screen.frame.Contains q) :
    m.screen.frame.Hits (m.drawnPoints x y rows) q ↔ m.Covers x y rows q.1 q.2 := by
  constructor
  · rintro ⟨p, hp, hplace⟩
    obtain ⟨dx, dy, rfl, hbit⟩ := (mem_spritePoints_iff m).mp hp
    obtain ⟨⟨hdx, hdy⟩, hafter⟩ := (place?_drawn x y rows hw hh hrows hq hbit).mp hplace
    exact ⟨by rw [hdx, hdy]; exact hbit, hafter⟩
  · rintro ⟨hbit, hafter⟩
    obtain ⟨dx, hdx⟩ := Int.eq_ofNat_of_zero_le
      (Int.emod_nonneg (q.1 - (m.reg x).toNat) (by omega : m.screen.width ≠ 0))
    obtain ⟨dy, hdy⟩ := Int.eq_ofNat_of_zero_le
      (Int.emod_nonneg (q.2 - (m.reg y).toNat) (by omega : m.screen.height ≠ 0))
    rw [hdx, hdy] at hbit
    exact ⟨_, (mem_spritePoints_iff m).mpr ⟨dx, dy, rfl, hbit⟩,
      (place?_drawn x y rows hw hh hrows hq hbit).mpr ⟨⟨hdx, hdy⟩, hafter⟩⟩

include hs in
/-- On a screen with room for a whole sprite, a draw meets no cell twice. -/
theorem nodup_drawn : (m.screen.frame.cellsOf (m.drawnPoints x y rows)).Nodup := by
  have hpoints := drawnPoints_nonneg hs x y rows
  refine Screen.Frame.nodup_cellsOf hs.width hs.height hpoints (nodup_spritePoints m _ _ rows) ?_
  intro p hp p' hp' q hplace hplace'
  have hq := Screen.Frame.contains_of_place? hs.width hs.height (hpoints p hp) hplace
  obtain ⟨dx, dy, rfl, hbit⟩ := (mem_spritePoints_iff m).mp hp
  obtain ⟨dx', dy', rfl, hbit'⟩ := (mem_spritePoints_iff m).mp hp'
  obtain ⟨⟨hdx, hdy⟩, -⟩ := (place?_drawn x y rows hw hh hrows hq hbit).mp hplace
  obtain ⟨⟨hdx', hdy'⟩, -⟩ := (place?_drawn x y rows hw hh hrows hq hbit').mp hplace'
  rw [← hdx, ← hdy, hdx', hdy']

end Room

/-- What a draw of a sprite with its corner at Vx and Vy makes of a machine: the pixels that the
sprite covers are flipped, VF says whether one of them was on, and of the other parts the counter
moves on and the wish to end the frame may arise. -/
structure Draws (m after : Machine) (x y : Register) (rows : Nat) : Prop where
  pixels : ∀ c r, m.screen.frame.Contains (c, r) → ∃ b, m.screen.pixel c r = .ok b ∧
    after.screen.pixel c r = .ok (if m.Covers x y rows c r then b ^^^ 1 else b)
  collides : (∃ c r, m.screen.frame.Contains (c, r) ∧ m.Covers x y rows c r ∧
    m.screen.pixel c r = .ok 1) → after.flag = 1
  misses : (¬ ∃ c r, m.screen.frame.Contains (c, r) ∧ m.Covers x y rows c r ∧
    m.screen.pixel c r = .ok 1) → after.flag = 0
  registers : ∀ z, z ≠ flagRegister → after.reg z = m.reg z
  frame : after.screen.frame = m.screen.frame
  others : ∃ registers screen awaitingBlank, after = { m with
    registers := registers, screen := screen, counter := m.counter + 2
    awaitingBlank := awaitingBlank }

include hs in
theorem drawSprite_draws (hbinary : m.screen.Binary) (hw : 8 ≤ m.screen.width)
    (hh : 15 ≤ m.screen.height) (hrows : rows ≤ 15) (d : Dialect) :
    m.Draws (m.drawSprite d x y rows).machine x y rows := by
  have hpoints := drawnPoints_nonneg hs x y rows
  have hnodup := nodup_drawn hs x y rows hw hh hrows
  have hcovers := fun q => hits_drawn_iff (q := q) x y rows hw hh hrows
  have hcollision := Screen.collision_draw hs.width hs.height hs.filled hpoints hnodup hbinary
  have hon : (∃ q, m.screen.frame.Hits (m.drawnPoints x y rows) q ∧
      m.screen.pixel q.1 q.2 = .ok 1) ↔
        ∃ c r, m.screen.frame.Contains (c, r) ∧ m.Covers x y rows c r ∧
          m.screen.pixel c r = .ok 1 := by
    constructor
    · rintro ⟨q, hit, hq⟩
      have hcontains := Screen.Frame.contains_of_hits hs.width hs.height hpoints hit
      exact ⟨q.1, q.2, hcontains, (hcovers q hcontains).mp hit, hq⟩
    · rintro ⟨c, r, hcontains, hcover, hq⟩
      exact ⟨(c, r), (hcovers (c, r) hcontains).mpr hcover, hq⟩
  rw [hon] at hcollision
  have hflag := reg_setReg_self m flagRegister
    (m.screen.draw 0 (m.drawnPoints x y rows)).collision
  rw [drawSprite_drawn hs]
  refine ⟨?_, fun h => hflag.trans (hcollision.1 h), fun h => hflag.trans (hcollision.2 h), ?_,
    Screen.draw_frame _ _ _, ⟨_, _, _, rfl⟩⟩
  · intro c r hcontains
    obtain ⟨b, hb, hafter⟩ :=
      Screen.pixel_draw hs.width hs.height hs.filled hpoints hnodup 0 hcontains
    refine ⟨b, hb, hafter.trans ?_⟩
    simp only [Screen.Frame.cellOf_mem_cellsOf_iff hs.width hs.height hpoints hcontains,
      hcovers (c, r) hcontains]
  · intro z hz
    exact reg_setReg_ne m hz _

end Machine

/-- The law of drawing, on a screen with room for a whole sprite. The word of a draw is executed,
and puts exactly its sprite on the screen. -/
theorem draw_law {m : Machine} (hm : m.Shaped) (hbinary : m.screen.Binary)
    (hw : 8 ≤ m.screen.width) (hh : 15 ≤ m.screen.height) (cpu : Processor) (x y : Register)
    (rows : Fin 16) :
    (cpu.execute (wordOfNibbles 0xD x y rows) m).result = .ok true ∧
      m.Draws (cpu.execute (wordOfNibbles 0xD x y rows) m).machine x y rows := by
  have hdone := Processor.execute_word cpu (i := .draw x y rows) rfl
    (hm.drawSprite_failure cpu.platform.dialect x y rows)
  have hdraws := Machine.drawSprite_draws hm.screen x y rows hbinary hw hh (by omega)
    cpu.platform.dialect
  rw [Instruction.word] at hdone
  rw [hdone]
  exact ⟨rfl, hdraws⟩

/-- A machine that points at the glyph of 0, with a screen that is on everywhere. -/
def lightMachine : Machine :=
  { strandedMachine with
    counter := programStart
    delay := 0
    screen := ⟨8, 15, true, ⟨Array.replicate 120 1⟩⟩ }

theorem shaped_lightMachine : lightMachine.Shaped where
  stack := shaped_strandedMachine.stack
  keypad := rfl
  width := by decide
  height := by decide
  filled := rfl

theorem draw_law_light :
    lightMachine.Shaped ∧ lightMachine.screen.Binary ∧ 8 ≤ lightMachine.screen.width ∧
      15 ≤ lightMachine.screen.height ∧
      (strandedSession.processor.execute 0xDFF5 lightMachine).result = .ok true ∧
      (strandedSession.processor.execute 0xDFF5 lightMachine).machine.screen.pixel 0 0 = .ok 0 ∧
      (strandedSession.processor.execute 0xDFF5 lightMachine).machine.screen.pixel 1 1 = .ok 1 ∧
      (strandedSession.processor.execute 0xDFF5 lightMachine).machine.flag = 1 := by
  have hbinary : lightMachine.screen.Binary := by
    intro b hb
    exact Or.inr (List.eq_of_mem_replicate (n := 120) (Array.mem_toList_iff.mpr hb))
  have hw : 8 ≤ lightMachine.screen.width := by decide
  have hh : 15 ≤ lightMachine.screen.height := by decide
  obtain ⟨hresult, hdraws⟩ := draw_law shaped_lightMachine hbinary hw hh
    strandedSession.processor flagRegister flagRegister 5
  have hword : ((wordOfNibbles 0xD flagRegister flagRegister (5 : Fin 16) : Nat) : Int) =
      0xDFF5 := rfl
  rw [hword] at hresult hdraws
  have hcornerOn : lightMachine.screen.pixel 0 0 = .ok 1 := by decide +kernel
  have hinsideOn : lightMachine.screen.pixel 1 1 = .ok 1 := by decide +kernel
  have hcovered : lightMachine.Covers flagRegister flagRegister (5 : Fin 16) 0 0 := by
    decide +kernel
  have hbare : ¬ lightMachine.Covers flagRegister flagRegister (5 : Fin 16) 1 1 := by
    decide +kernel
  obtain ⟨b, hb, hcorner⟩ := hdraws.pixels 0 0 (by decide)
  rw [hcornerOn] at hb
  cases hb
  rw [if_pos hcovered] at hcorner
  obtain ⟨b, hb, hinside⟩ := hdraws.pixels 1 1 (by decide)
  rw [hinsideOn] at hb
  cases hb
  rw [if_neg hbare] at hinside
  exact ⟨shaped_lightMachine, hbinary, hw, hh, hresult, hcorner, hinside,
    hdraws.collides ⟨0, 0, by decide, hcovered, hcornerOn⟩⟩

end Chip8
