/-
  Draws undo each other, and may be made in any order. A draw that does not take its corner from VF
  meets the same cells of the screen before and after any other such draw, since of what decides
  them only VF is ever changed (`Stamp.completes`). Hence any number of these draws flips the cells
  that all of them meet, one after another, and a cell is flipped in the end if it was met an odd
  number of times, be it by one draw or by several. The order of the draws has no part in this
  number, and twice the same draw makes it even (`draws_commute`).
-/
import Mathlib
import Chip8.Proofs.Jobs
import Chip8.Proofs.Sprites
namespace Chip8

namespace Screen

/-! ## Many flips -/

/-- The screen with cells flipped in turn. -/
def flipAll (s : Screen) (ks : List Nat) : Screen := { s with bank := ⟨ks.foldl flip s.bank.cells⟩ }

theorem flipAll_append (s : Screen) (ks js : List Nat) :
    s.flipAll (ks ++ js) = (s.flipAll ks).flipAll js := by
  simp only [flipAll, List.foldl_append]

/-- What cells are met an odd number of times decides the screen. -/
theorem flipAll_eq_of_count {ks js : List Nat} (h : ∀ k, ks.count k % 2 = js.count k % 2)
    (s : Screen) : s.flipAll ks = s.flipAll js := by
  have hcells : ks.foldl flip s.bank.cells = js.foldl flip s.bank.cells := by
    refine Array.ext_getElem? fun k => ?_
    rw [getElem?_flips, getElem?_flips, h]
  rw [flipAll, hcells]
  rfl

theorem flipAll_twice (s : Screen) (ks : List Nat) : s.flipAll (ks ++ ks) = s := by
  have hcount : ∀ k, (ks ++ ks).count k % 2 = ([] : List Nat).count k % 2 := by
    intro k
    rw [List.count_append, List.count_nil]
    omega
  exact flipAll_eq_of_count hcount s

theorem flipAll_perm (s : Screen) {ks js : List Nat} (h : ks.Perm js) :
    s.flipAll ks = s.flipAll js :=
  flipAll_eq_of_count (fun k => by rw [h.count_eq]) s

end Screen

/-! ## Stamps -/

/-- A draw that does not take its corner from VF. -/
structure Stamp where
  x : Register
  y : Register
  rows : Fin 16
  x_ne_flag : x ≠ flagRegister
  y_ne_flag : y ≠ flagRegister

namespace Stamp

/-- The word of a stamp, to be executed. -/
def job (d : Stamp) : Job := { word := wordOfNibbles 0xD d.x d.y d.rows }

/-- The cells that a stamp meets, in turn. -/
def cells (m : Machine) (d : Stamp) : List Nat :=
  m.screen.frame.cellsOf (m.drawnPoints d.x d.y d.rows)

/-- The cells of a stamp are decided by the frame of the screen, by the memory and I, and by the
registers other than VF. -/
theorem cells_congr {m n : Machine} (hframe : n.screen.frame = m.screen.frame)
    (hmemory : n.memory = m.memory) (hindex : n.index = m.index)
    (hreg : ∀ z, z ≠ flagRegister → n.reg z = m.reg z) (d : Stamp) : d.cells n = d.cells m := by
  have hbyte : ∀ dy : Nat, n.byteAt (n.index + dy) = m.byteAt (m.index + dy) := by
    intro dy
    exact Machine.byteAt_congr hmemory (by omega)
  have hwidth := Screen.width_of_frame hframe
  have hheight := Screen.height_of_frame hframe
  simp only [cells, Machine.drawnPoints, Machine.spritePoints, hframe, hwidth, hheight, hbyte,
    hreg d.x d.x_ne_flag, hreg d.y d.y_ne_flag]

section Sound

variable {m : Machine} (hs : m.screen.Sound)

include hs

/-- A stamp flips the cells that it meets, and leaves each stamp the cells that it had. -/
theorem effect_eq (p : Platform) (number : Int) (d : Stamp) :
    ∃ n : Machine, (Instruction.draw d.x d.y d.rows).effect p number m = ⟨n, none⟩ ∧
      n.screen = m.screen.flipAll (d.cells m) ∧ n.screen.frame = m.screen.frame ∧
      ∀ e : Stamp, e.cells n = e.cells m := by
  have hpoints := Machine.drawnPoints_nonneg hs d.x d.y d.rows
  have hdrawn := Machine.drawSprite_drawn hs d.x d.y d.rows p.dialect
  have hflips := (Screen.draw_eq hs.width hs.height hs.filled 0 hpoints).2
  have hframe := m.screen.draw_frame 0 (m.drawnPoints d.x d.y d.rows)
  refine ⟨_, hdrawn, hflips, hframe, cells_congr hframe rfl rfl fun z hz => ?_⟩
  exact Machine.reg_setReg_ne m hz _

/-- Stamps are executed, and flip the cells that they meet on the machine before the first one. -/
theorem completes (cpu : Processor) (stamps : List Stamp) :
    ∃ n : Machine, cpu.Completes (stamps.map job) m n ∧
      n.screen = m.screen.flipAll (stamps.flatMap (cells m)) := by
  induction stamps generalizing m with
  | nil => exact ⟨m, .nil m, rfl⟩
  | cons d stamps ih =>
    obtain ⟨t, heffect, hscreen, hframe, hcells⟩ := effect_eq hs cpu.platform 0 d
    obtain ⟨n, hrest, hlast⟩ := ih (Screen.sound_of_frame hframe hs)
    have hsame : cells t = cells m := funext hcells
    refine ⟨n, .instruction rfl rfl heffect hrest, ?_⟩
    rw [hlast, hscreen, hsame, List.flatMap_cons, Screen.flipAll_append]

end Sound

end Stamp

/-- Draws that do not take their corners from VF, on a screen of any size and with any way with the
edges. The same draw twice in a row leaves the screen as it was. Any draws leave the same screen in
whatever order they are made. -/
theorem draws_commute {m : Machine} (hs : m.screen.Sound) (cpu : Processor) :
    (∀ d : Stamp, (cpu.executeAll [d.job, d.job] m).result = .ok true ∧
      (cpu.executeAll [d.job, d.job] m).machine.screen = m.screen) ∧
    ∀ stamps others : List Stamp, stamps.Perm others →
      (cpu.executeAll (stamps.map Stamp.job) m).result = .ok true ∧
      (cpu.executeAll (others.map Stamp.job) m).result = .ok true ∧
      (cpu.executeAll (stamps.map Stamp.job) m).machine.screen =
        (cpu.executeAll (others.map Stamp.job) m).machine.screen := by
  constructor
  · intro d
    obtain ⟨n, hdone, hscreen⟩ := Stamp.completes hs cpu [d, d]
    obtain ⟨hresult, -, hmachine⟩ := hdone.executeAll
    have hcells : [d, d].flatMap (Stamp.cells m) = d.cells m ++ d.cells m := by
      rw [List.flatMap_cons, List.flatMap_singleton]
    rw [hcells, Screen.flipAll_twice, ← hmachine] at hscreen
    exact ⟨hresult, hscreen⟩
  · intro stamps others hperm
    obtain ⟨n, hdone, hscreen⟩ := Stamp.completes hs cpu stamps
    obtain ⟨n', hdone', hscreen'⟩ := Stamp.completes hs cpu others
    obtain ⟨hresult, -, hmachine⟩ := hdone.executeAll
    obtain ⟨hresult', -, hmachine'⟩ := hdone'.executeAll
    refine ⟨hresult, hresult', ?_⟩
    rw [hmachine, hmachine', hscreen, hscreen']
    exact Screen.flipAll_perm m.screen (hperm.flatMap_right _)

/-- A machine with a screen that is narrower and lower than a glyph, so that a glyph that wraps
around covers some pixels more than once. -/
def narrowMachine : Machine :=
  { lightMachine with
    screen := ⟨3, 2, true, ⟨#[1, 0, 1, 0, 0, 1]⟩⟩
    registers := Vector.ofFn fun k => UInt8.ofNat k.val }

/-- Three rows of the glyph at I, with the corner in the first column and row, and two rows of it,
one row further down. -/
theorem draws_commute_narrow :
    narrowMachine.screen.Sound ∧ ∃ d e : Stamp,
      (d.x, d.y, d.rows) = (0, 0, 3) ∧ (e.x, e.y, e.rows) = (0, 1, 2) ∧
      (strandedSession.processor.executeAll [d.job] narrowMachine).machine.screen ≠
        narrowMachine.screen ∧
      (strandedSession.processor.executeAll [d.job, d.job] narrowMachine).machine.screen =
        narrowMachine.screen ∧
      (strandedSession.processor.executeAll ([d, e].map Stamp.job) narrowMachine).machine.screen =
        (strandedSession.processor.executeAll ([e, d].map Stamp.job)
          narrowMachine).machine.screen := by
  have hs : narrowMachine.screen.Sound := ⟨by decide, by decide, rfl⟩
  obtain ⟨htwice, horder⟩ := draws_commute hs strandedSession.processor
  refine ⟨hs, ⟨0, 0, 3, by decide, by decide⟩, ⟨0, 1, 2, by decide, by decide⟩, rfl, rfl,
    by decide +kernel, (htwice _).2, ?_⟩
  obtain ⟨-, -, hsame⟩ := horder [⟨0, 0, 3, by decide, by decide⟩, ⟨0, 1, 2, by decide, by decide⟩]
    [⟨0, 1, 2, by decide, by decide⟩, ⟨0, 0, 3, by decide, by decide⟩] (List.Perm.swap _ _ [])
  exact hsame

end Chip8
