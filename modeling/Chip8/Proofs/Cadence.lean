/-
  A session follows a computer that runs the same program step after step, without frames and with
  nobody at the keys. Cutting a run into frames of any size neither drops a step nor adds one: a
  step of a session that is under way is the next step of the computer, and at the end of a frame
  only the wish to end it is forgotten, which no step reads (`Follows.step`, `Follows.runFrame`).
-/
import Chip8.Proofs.Computer
import Chip8.Proofs.Faults
import Chip8.Proofs.Frames
import Chip8.Proofs.Lockstep
namespace Chip8

namespace Platform

/-- The platforms differ at most in their names, in their speeds, and in whether a draw ends the
frame. -/
def SameGame (p q : Platform) : Prop :=
  q = { p with
    name := q.name
    tickRate := q.tickRate
    dialect := { p.dialect with drawEndsFrame := q.dialect.drawEndsFrame } }

theorem SameGame.refl (p : Platform) : p.SameGame p := rfl

theorem SameGame.symm {p q : Platform} (h : p.SameGame q) : q.SameGame p := by
  unfold SameGame at h ⊢
  rw [h]

theorem SameGame.agreedBy {p q : Platform} (h : p.SameGame q) (i : Instruction) :
    i.AgreedBy p.dialect q.dialect := by
  intro f _ hf
  rw [h]
  cases f with
  | drawEndsFrame => exact absurd rfl hf
  | _ => rfl

theorem SameGame.glyphSize {p q : Platform} (h : p.SameGame q) : q.glyphSize = p.glyphSize := by
  rw [h]

theorem tickRate_of_mem_presets : ∀ p ∈ presets, 1 ≤ p.tickRate := by decide

/-- A configured platform runs at least one instruction in a frame. -/
theorem tickRate_of_configure {name : String} {tickRate : Option Int}
    {overrides : List (String × Option Bool)} {p : Platform}
    (h : configure name tickRate overrides = .ok p) : 1 ≤ p.tickRate := by
  unfold configure at h
  cases hq : find? name with
  | none =>
    rw [hq] at h
    cases h
  | some q =>
    have hrate := tickRate_of_mem_presets q (List.mem_of_find?_eq_some hq)
    rw [hq] at h
    dsimp only at h
    split at h
    · cases h
    · split at h
      · cases h
        exact hrate
      · split at h
        · cases h
        · cases h
          dsimp only
          omega

end Platform

namespace Machine

/-- The machine with no wish to end the frame. -/
def settle (m : Machine) : Machine := { m with awaitingBlank := false }

/-- Machines that differ at most in the wish to end the frame. -/
theorem eq_recast_of_settle {m n : Machine} (h : n.settle = m.settle) :
    n = m.recast m.screen.wraps n.awaitingBlank := by
  calc n = { n.settle with awaitingBlank := n.awaitingBlank } := rfl
    _ = { m.settle with awaitingBlank := n.awaitingBlank } := by rw [h]
    _ = m.recast m.screen.wraps n.awaitingBlank := rfl

end Machine

/-! ## Steps without a host -/

namespace Computer

/-- The computer after some steps with nobody at the keys. -/
def alone (c : Computer) (n : Nat) : Computer := c.after (fun _ => id) n

theorem alone_succ (c : Computer) (n : Nat) :
    c.alone (n + 1) = ⟨(c.alone n).step.processor, (c.alone n).step.machine⟩ := rfl

theorem alone_platform (c : Computer) (n : Nat) :
    (c.alone n).processor.platform = c.processor.platform := by
  induction n with
  | zero => rfl
  | succ n ih =>
    rw [alone_succ]
    exact ((c.alone n).processor.step_processor _).1.trans ih

/-- A step finds an instruction word and is not stopped. -/
def Goes (c : Computer) (n : Nat) : Prop := ∃ tone, (c.alone n).step.result = .ok (some tone)

instance (c : Computer) (n : Nat) : Decidable (c.Goes n) :=
  inferInstanceAs (Decidable (∃ _ : Bool, _))

/-- What a step comes to that ends a run: a fault, or that the program has finished. -/
def ending : Option Fault → Except Failure (Option Bool)
  | some f => .error (.fault f)
  | none => .ok none

/-- The run ends after a number of steps, with a fault or because the program has finished. -/
structure HaltsAfter (c : Computer) (n : Nat) (fault : Option Fault) : Prop where
  going : ∀ k < n, c.Goes k
  ended : (c.alone n).step.result = ending fault

/-- The run ends. -/
def Halts (c : Computer) : Prop := ∃ n fault, c.HaltsAfter n fault

theorem not_goes_of_ending {c : Computer} {n : Nat} {fault : Option Fault}
    (h : (c.alone n).step.result = ending fault) : ¬ c.Goes n := by
  rintro ⟨tone, hgoes⟩
  rw [hgoes] at h
  cases fault <;> cases h

theorem HaltsAfter.le {c : Computer} {m n : Nat} {fault : Option Fault} (h : c.HaltsAfter n fault)
    (hgoing : ∀ k < m, c.Goes k) : m ≤ n := by
  by_cases hlt : n < m
  · exact absurd (hgoing n hlt) (not_goes_of_ending h.ended)
  · omega

theorem HaltsAfter.unique {c : Computer} {m n : Nat} {e f : Option Fault}
    (hm : c.HaltsAfter m e) (hn : c.HaltsAfter n f) : m = n ∧ e = f := by
  have hlength : m = n := Nat.le_antisymm (hn.le hm.going) (hm.le hn.going)
  subst hlength
  have hends := hm.ended.symm.trans hn.ended
  refine ⟨rfl, ?_⟩
  cases e <;> cases f <;> cases hends <;> rfl

end Computer

/-! ## Sessions that follow a computer -/

namespace Session

theorem step_of_off {s : Session} (hoff : s.status = .off) : s.step.session = s := by
  have hidle : s.isRunning = false := by rw [isRunning, hoff]; rfl
  rw [(Course.idle hidle).step_eq]

theorem steps_le_step (s : Session) : s.steps ≤ s.step.session.steps := by
  have hcourse := s.step_course
  generalize s.step = reply at hcourse ⊢
  cases hcourse with
  | idle | halted | refused | finished => exact Nat.le_refl s.steps
  | ticked => exact Nat.le_succ s.steps

/-- The session is under way, and the computer has come as far in as many steps. -/
structure Underway (c : Computer) (s : Session) : Prop where
  status : s.status = .running
  alike : (c.alone s.steps).processor.Alike s.processor
  machine : s.machine.settle = (c.alone s.steps).machine.settle

/-- The session has ended, and so does the computer with its next step. -/
structure Ended (c : Computer) (s : Session) : Prop where
  status : s.status = .off
  result : (c.alone s.steps).step.result = Computer.ending s.fault
  machine : s.machine.settle = (c.alone (s.steps + 1)).machine.settle

/-- A session on a platform does what a computer does that plays the same game. -/
structure Follows (p : Platform) (c : Computer) (s : Session) : Prop extends s.Guarded p where
  game : c.processor.platform.SameGame p
  released : s.machine.keypad = Array.replicate keyCount false
  going : ∀ k < s.steps, c.Goes k
  phase : s.Underway c ∨ s.Ended c

section Follows

variable {p : Platform} {c : Computer} {s : Session}

theorem Follows.haltsAfter (h : s.Follows p c) (hoff : s.status = .off) :
    c.HaltsAfter s.steps s.fault := by
  rcases h.phase with hunder | hended
  · rw [hunder.status] at hoff
    cases hoff
  · exact ⟨h.going, hended.result⟩

/-- The next step of a session that is under way is the next step of the computer. -/
theorem Follows.step_recast (h : s.Follows p c) (hunder : s.Underway c) :
    ∃ later, Processor.Recast (c.alone s.steps).step (s.processor.step s.machine)
      (c.alone s.steps).machine.screen.wraps later := by
  have hgame : (c.alone s.steps).processor.platform.SameGame s.processor.platform := by
    rw [c.alone_platform, h.platform]
    exact h.game
  obtain ⟨later, hrun, -⟩ := Processor.step_recast hunder.alike hgame.glyphSize
    (fun i _ => ⟨hgame.agreedBy i, fun _ => rfl⟩) s.machine.awaitingBlank
  rw [← Machine.eq_recast_of_settle hunder.machine] at hrun
  exact ⟨later, hrun⟩

/-- A step of a session goes on or ends the session, and follows the computer in both. -/
theorem Follows.step [Capacity] (hp : p.Sized) (h : s.Follows p c) :
    s.step.session.Follows p c ∧
      (s.status = .running →
        s.step.session.status = .off ∨ s.steps < s.step.session.steps) := by
  obtain ⟨hguarded, executed, hok⟩ := step_guarded hp h.toGuarded
  rcases h.phase with hunder | hended
  case inr =>
    rw [step_of_off hended.status]
    refine ⟨h, fun hrunning => ?_⟩
    rw [hended.status] at hrunning
    cases hrunning
  obtain ⟨later, hrun⟩ := h.step_recast hunder
  have hwraps : (c.alone s.steps).machine.screen.wraps =
      (c.alone (s.steps + 1)).machine.screen.wraps :=
    (congrArg Screen.Frame.wraps ((c.alone s.steps).processor.step_frame _).1).symm
  have hmachine : s.ran.machine.settle = (c.alone (s.steps + 1)).machine.settle := by
    unfold ran
    rw [hrun.machine, hwraps]
    rfl
  have hreleased : s.ran.machine.keypad = Array.replicate keyCount false :=
    (s.processor.step_keypad s.machine).trans h.released
  have hfault : s.fault = none := h.calm (by rw [hunder.status]; decide)
  have hcourse := s.step_course
  generalize s.step = reply at hguarded hok hcourse ⊢
  cases hcourse with
  | idle hs =>
    rw [isRunning, hunder.status] at hs
    cases hs
  | refused =>
    cases hok
  | halted _ hr =>
    refine ⟨⟨hguarded, h.game, hreleased, h.going, Or.inr ⟨rfl, ?_, hmachine⟩⟩, fun _ => Or.inl rfl⟩
    exact hrun.result.symm.trans hr
  | finished _ hr =>
    refine ⟨⟨hguarded, h.game, hreleased, h.going, Or.inr ⟨rfl, ?_, hmachine⟩⟩, fun _ => Or.inl rfl⟩
    have hnone : s.ran.powerOff.fault = none := hfault
    rw [hnone]
    exact hrun.result.symm.trans hr
  | ticked _ hr =>
    refine ⟨⟨hguarded, h.game, hreleased, ?_, Or.inl ⟨hunder.status, hrun.alike, hmachine⟩⟩,
      fun _ => Or.inr (Nat.lt_succ_self _)⟩
    intro k hk
    by_cases hlast : k = s.steps
    · rw [hlast]
      exact ⟨_, hrun.result.symm.trans hr⟩
    · have hk' : k < s.steps + 1 := hk
      exact h.going k (by omega)

theorem Follows.endFrame (h : s.Follows p c) : s.endFrame.Follows p c where
  platform := h.platform
  machine := { h.machine with }
  source := h.source
  calm := h.calm
  faults := h.faults
  game := h.game
  released := h.released
  going := h.going
  phase := h.phase.imp (fun h => ⟨h.status, h.alike, h.machine⟩)
    (fun h => ⟨h.status, h.result, h.machine⟩)

/-- A frame of a session that is under way takes at least one step, or ends the session. -/
theorem Follows.runFrame [Capacity] (hp : p.Sized) (hrate : 1 ≤ p.tickRate) (h : s.Follows p c)
    (hrunning : s.status = .running) :
    s.runFrame.session.Follows p c ∧
      (s.runFrame.session.status = .off ∨ s.steps < s.runFrame.session.steps) := by
  have hrate' : 1 ≤ s.processor.platform.tickRate := by rw [h.platform]; exact hrate
  obtain ⟨hfirst, hprogress⟩ := h.step hp
  refine runFrame_keeps_step (P := fun t => t.Follows p c ∧ (t.status = .off ∨ s.steps < t.steps))
    ?_ (fun t ht => ⟨ht.1.endFrame, ht.2⟩) hrate' ⟨hfirst, hprogress hrunning⟩
  rintro t ⟨ht, hmore⟩
  refine ⟨(ht.step hp).1, ?_⟩
  rcases hmore with hoff | hmore
  · rw [step_of_off hoff]
    exact Or.inl hoff
  · exact Or.inr (Nat.lt_of_lt_of_le hmore t.steps_le_step)

end Follows

end Session

end Chip8
