/-
  The frames of the host. A frame ends at once if the user quits. Otherwise it passes the command to
  pause and the held keys on to the session, runs it, releases the keys, draws, and sets the buzzer
  (`runFrame_course` says once everything that a frame can come to). Between frames the session is
  in order and no key of the guest is held (`Resting`), which each frame keeps, so that a frame is
  never refused and the guest has the keys of its own frame and no others (`frame_contract`).
-/
import Chip8.Proofs.Frames
import Chip8.Proofs.Playing
namespace Chip8

namespace Host.Emulator

variable {τ : Type}

/-! ## What a frame can come to -/

/-- The session after the command of a batch. -/
def commanded (e : Emulator τ) (b : Batch) : Session :=
  if b.pause then e.session.pause else e.session

/-- What is told of the command of a batch. -/
def commandLog (e : Emulator τ) (b : Batch) : List Record :=
  if b.pause then [.toggled (e.commanded b).status] else []

/-- The session before the first step of a frame, which the command and the held keys have
reached. -/
def begun (e : Emulator τ) (b : Batch) : Session :=
  ((e.commanded b).setKeys (e.keyboard.apply b).held.toList).2

/-- The session after the last step of a frame. -/
def played (e : Emulator τ) (b : Batch) : Session := (e.begun b).stepped (e.begun b).frameSteps

/-- What a frame can come to. -/
inductive Course (e : Emulator τ) (b : Batch) : Turn τ → Prop where
  /-- The user quits. -/
  | quit (hquit : b.quit = true) :
    Course e b ⟨.ok false, { e with keyboard := e.keyboard.apply b }, [], []⟩
  /-- There are fewer keys than states for them. -/
  | overset (hquit : b.quit = false) {failure : Failure}
    (hset : ((e.commanded b).setKeys (e.keyboard.apply b).held.toList).1 = .error failure) :
    Course e b ⟨.error failure, { e with session := e.begun b, keyboard := e.keyboard.apply b },
      [], e.commandLog b⟩
  /-- The frame of the session is refused. -/
  | refused (hquit : b.quit = false) {failure : Failure}
    (hframe : (e.begun b).runFrame.result = .error failure) :
    Course e b ⟨.error failure,
      { e with session := (e.begun b).runFrame.session, keyboard := e.keyboard.apply b },
      [], e.commandLog b ++ (e.begun b).runFrame.log⟩
  /-- The screen is drawn. -/
  | drawn (hquit : b.quit = false) {executed : Nat}
    (hframe : (e.begun b).runFrame.result = .ok executed) :
    Course e b ⟨.ok ((e.played b).status != .off),
      { e with
        session := (e.played b).endFrame.clearKeys
        keyboard := e.keyboard.apply b
        frames := e.frames + 1
        instructions := e.instructions + executed },
      [.draw (e.played b).machine.screen, .buzzer (e.played b).tone],
      e.commandLog b ++ (e.begun b).runFrame.log⟩

theorem runFrame_course (e : Emulator τ) (b : Batch) : e.Course b (e.runFrame b) := by
  unfold runFrame
  dsimp only
  split
  · rename_i hquit
    exact .quit hquit
  rename_i hquit
  have hgoes := Bool.eq_false_iff.mpr hquit
  split
  · rename_i failure session hkeys
    obtain rfl : e.begun b = session := congrArg Prod.snd hkeys
    exact .overset hgoes (congrArg Prod.fst hkeys)
  · rename_i session hkeys
    obtain rfl : e.begun b = session := congrArg Prod.snd hkeys
    cases hframe : (e.begun b).runFrame.result with
    | error failure => exact .refused hgoes hframe
    | ok executed =>
      have hsession := Session.runFrame_session hframe
      dsimp only
      rw [hsession]
      exact .drawn hgoes hframe

/-! ## Between frames -/

/-- The session is in order, and no key of the guest is held. -/
structure Resting (p : Platform) (e : Emulator τ) : Prop where
  session : e.session.Guarded p
  released : e.session.machine.keypad = Array.replicate keyCount false

/-- What a frame comes to that is drawn. -/
structure Drawn (e : Emulator τ) (b : Batch) (turn : Turn τ) : Prop where
  /-- The guest has the keys that are held once the batch is read, from the first step to the
  last. -/
  keys : ∀ k ≤ (e.begun b).frameSteps,
    ((e.begun b).stepped k).machine.keypad = (e.keyboard.apply b).held.toArray
  /-- The frame of the session is run, and its keys are released. -/
  session : turn.emulator.session = (e.played b).endFrame.clearKeys
  keyboard : turn.emulator.keyboard = e.keyboard.apply b
  /-- The screen is drawn once, and then the buzzer is set once. -/
  events : turn.events = [.draw (e.played b).machine.screen, .buzzer turn.emulator.session.tone]
  result : turn.result = .ok (turn.emulator.session.status != .off)

section Resting

variable [Capacity] {p : Platform} (hp : p.Sized) {e : Emulator τ}

include hp

theorem Resting.commanded_guarded (h : e.Resting p) (b : Batch) : (e.commanded b).Guarded p := by
  unfold commanded
  split
  · exact Session.perform_guarded hp h.session .pause
  · exact h.session

theorem Resting.begun_guarded (h : e.Resting p) (b : Batch) : (e.begun b).Guarded p :=
  Session.perform_guarded hp (h.commanded_guarded hp b) (.setKeys _)

theorem Resting.setKeys (h : e.Resting p) (b : Batch) :
    (e.commanded b).setKeys (e.keyboard.apply b).held.toList = (.ok (), e.begun b) ∧
      (e.begun b).machine.keypad = (e.keyboard.apply b).held.toArray := by
  have hset := Session.setKeys_all (h.commanded_guarded hp b).machine.keypad
    (e.keyboard.apply b).held
  unfold begun
  rw [hset]
  exact ⟨rfl, rfl⟩

/-- Without the command to quit a frame is drawn. -/
theorem Resting.drawn (h : e.Resting p) {b : Batch} (hquit : b.quit = false) :
    e.Drawn b (e.runFrame b) := by
  obtain ⟨hset, hkeys⟩ := h.setKeys hp b
  obtain ⟨count, hcount⟩ := Session.runFrame_ok hp (h.begun_guarded hp b)
  -- between frames a session is in order, so neither its keys nor its frame can be refused
  have hcourse := e.runFrame_course b
  generalize e.runFrame b = turn at hcourse ⊢
  cases hcourse with
  | quit hq =>
    rw [hquit] at hq
    cases hq
  | overset _ hrefused =>
    rw [hset] at hrefused
    cases hrefused
  | refused _ hrefused =>
    rw [hcount] at hrefused
    cases hrefused
  | drawn =>
    exact ⟨fun k _ => ((e.begun b).stepped_keypad k).trans hkeys, rfl, rfl, rfl, rfl⟩

theorem Resting.frame_guarded (h : e.Resting p) (b : Batch) :
    (e.played b).endFrame.Guarded p := by
  have hbegun := h.begun_guarded hp b
  obtain ⟨count, hcount⟩ := Session.runFrame_ok hp hbegun
  have hframe := Session.perform_guarded hp hbegun .runFrame
  rw [Session.perform, Session.runFrame_session hcount] at hframe
  exact hframe

theorem Resting.runFrame (h : e.Resting p) (b : Batch) : (e.runFrame b).emulator.Resting p := by
  cases hquit : b.quit with
  | true =>
    have hturn : (e.runFrame b).emulator = { e with keyboard := e.keyboard.apply b } := by
      rw [Emulator.runFrame, if_pos hquit]
    rw [hturn]
    exact ⟨h.session, h.released⟩
  | false =>
    have hframe := h.frame_guarded hp b
    have hsession := (h.drawn hp hquit).session
    refine ⟨?_, ?_⟩
    · rw [hsession]
      exact Session.perform_guarded hp hframe .clearKeys
    · rw [hsession]
      exact Session.clearKeys_keypad hframe.machine.keypad

end Resting

/-! ## Frames in turn -/

/-- The emulator after the frames of some batches, whatever they came to. -/
def after (e : Emulator τ) (past : List Batch) : Emulator τ :=
  past.foldl (fun e b => (e.runFrame b).emulator) e

theorem runFrame_keyboard (e : Emulator τ) (b : Batch) :
    (e.runFrame b).emulator.keyboard = e.keyboard.apply b := by
  have hcourse := e.runFrame_course b
  generalize e.runFrame b = turn at hcourse ⊢
  cases hcourse <;> rfl

theorem after_keyboard (e : Emulator τ) (past : List Batch) :
    (e.after past).keyboard = past.foldl Keyboard.apply e.keyboard := by
  induction past generalizing e with
  | nil => rfl
  | cons b past ih =>
    rw [List.foldl_cons, ← e.runFrame_keyboard b]
    exact ih (e.runFrame b).emulator

theorem Resting.after [Capacity] {p : Platform} (hp : p.Sized) {e : Emulator τ} (h : e.Resting p)
    (past : List Batch) : (e.after past).Resting p := by
  induction past generalizing e with
  | nil => exact h
  | cons b past ih => exact ih (h.runFrame hp b)

/-- The contract of a frame. Take a program that was started on a platform with a screen, such as
every configured one, with random numbers that never end, and a keyboard with any keymap. Whatever
frames went before, the keys of the guest are released, and the keyboard holds what the user holds.
The frame of a batch with the command to quit ends the loop, and but for the keyboard, which has
read the batch, it changes nothing and does nothing, even if the batch has the command to pause as
well. Every other frame is drawn, and is not refused. While its steps are taken the guest has the
keys that the user holds once the batch is read; and it goes on unless the session is off. -/
theorem frame_contract [Capacity] [Time τ] {cpu : Processor} (hp : cpu.platform.Sized)
    (hsource : cpu.source.Endless) {program : List UInt8} {s : Session}
    (hstarted : Session.started cpu program = .ok s) (keymap : Keymap) (past : List Batch) :
    ∀ e : Emulator τ, e = (Emulator.new s (.ofKeymap keymap)).after past →
      e.session.machine.keypad = Array.replicate keyCount false ∧
      e.keyboard = past.foldl Keyboard.apply (.ofKeymap keymap) ∧
      ∀ b : Batch,
        (b.quit = true →
          e.runFrame b = ⟨.ok false, { e with keyboard := e.keyboard.apply b }, [], []⟩) ∧
        (b.quit = false → e.Drawn b (e.runFrame b)) := by
  rintro e rfl
  obtain ⟨hlength, rfl⟩ := Session.started_eq_ok hp hstarted
  have hfollows := Session.started_follows hp (.refl _) (.refl cpu) hsource hlength
  have hresting : (Emulator.new (Session.opening cpu program) (.ofKeymap keymap) :
      Emulator τ).Resting cpu.platform := ⟨hfollows.toGuarded, hfollows.released⟩
  have hlater := hresting.after hp past
  refine ⟨hlater.released, Emulator.after_keyboard _ past, fun b => ⟨fun hquit => ?_, ?_⟩⟩
  · rw [Emulator.runFrame, if_pos hquit]
  · exact hlater.drawn hp

/-- A program that jumps to itself without end. -/
def spinningProgram : List UInt8 := [0x12, 0x00]

/-- Presses a key and then pauses the session, and in a frame of its own tries to pause and quit at
once. -/
def pausingPast : List Batch :=
  [{ presses := [(3, true)], pause := true }, { quit := true, pause := true }]

attribute [local instance] Capacity.least in
theorem frame_contract_paused :
    ∃ (s : Session) (e : Emulator FrameTime),
      Session.started { modernProcessor with platform := slowModern } spinningProgram = .ok s ∧
        e = (Emulator.new s (.ofKeymap ⟨Vector.ofFn fun k => k.val⟩)).after pausingPast ∧
        e.session.status = .paused ∧
        e.session.machine.keypad = Array.replicate keyCount false ∧
        e.keyboard.held.toList.findIdx? id = some 3 ∧
        (e.runFrame { quit := true }).result = .ok false ∧
        (e.runFrame { pause := true }).result = .ok true ∧
        (e.begun { pause := true }).machine.keypad = e.keyboard.held.toArray := by
  have hstarted : Session.started { modernProcessor with platform := slowModern } spinningProgram =
      .ok _ := Session.started_eq (Platform.sized_of_geometry rfl) (by decide)
  obtain ⟨hreleased, hkeyboard, hframe⟩ := @frame_contract FrameTime _ _ _
    (Platform.sized_of_geometry rfl) (fun _ => ⟨_, rfl⟩) _ _ hstarted
    ⟨Vector.ofFn fun k => k.val⟩ pausingPast _ rfl
  obtain ⟨hquit, -⟩ := hframe { quit := true }
  obtain ⟨-, hdrawn⟩ := hframe { pause := true }
  refine ⟨_, _, hstarted, rfl, by decide +kernel, hreleased, ?_, ?_, ?_, ?_⟩
  · rw [hkeyboard]
    decide +kernel
  · rw [hquit rfl]
  · rw [(hdrawn rfl).result]
    decide +kernel
  · exact (hdrawn rfl).keys 0 (Nat.zero_le _)

end Host.Emulator

end Chip8
