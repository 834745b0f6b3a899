/-
  A frame, step by step. A frame takes steps until one of them executes nothing, or a sprite draw
  ends the frame, or the steps of the platform are used up. Unless it is refused it leaves the
  session as its last step has left it, with the wish to end the frame forgotten
  (`runFrame_session`), and it tells what its steps have told, in their order (`runFrame_log`).
-/
import Chip8.Proofs.History
namespace Chip8

namespace Session

/-- The session after some steps. -/
def stepped (s : Session) : Nat → Session
  | 0 => s
  | n + 1 => s.step.session.stepped n

theorem stepped_succ (s : Session) (n : Nat) : s.stepped (n + 1) = (s.stepped n).step.session := by
  induction n generalizing s with
  | zero => rfl
  | succ n ih => exact ih s.step.session

/-- The next step executes an instruction, and no sprite draw ends the frame with it. -/
def goesOn (s : Session) : Bool :=
  decide (s.step.result = .ok true) && !s.step.session.machine.awaitingBlank

/-- How many steps a frame takes that has some left. -/
def stepsIn : Nat → Session → Nat
  | 0, _ => 0
  | n + 1, s => if s.goesOn then stepsIn n s.step.session + 1 else 1

/-- How many steps a frame takes. -/
def frameSteps (s : Session) : Nat := stepsIn s.processor.platform.tickRate.toNat s

/-- What the first steps tell, in their order. -/
theorem flatMap_stepped_succ {β : Type} (s : Session) (f : Session → List β) (n : Nat) :
    ((List.range (n + 1)).flatMap fun k => f (s.stepped k)) =
      f s ++ (List.range n).flatMap fun k => f (s.step.session.stepped k) := by
  rw [List.range_succ_eq_map, List.flatMap_cons, List.flatMap_map]
  rfl

section Ticks

variable {s : Session} (n executed : Nat) (log : Array Record)

theorem goesOn_iff :
    s.goesOn = true ↔ s.step.result = .ok true ∧ s.step.session.machine.awaitingBlank = false := by
  rw [goesOn, Bool.and_eq_true, decide_eq_true_eq, Bool.not_eq_true']

theorem ticks_of_goesOn (h : s.goesOn = true) :
    ticks (n + 1) s executed log = ticks n s.step.session (executed + 1) (log ++ s.step.log) := by
  obtain ⟨hresult, hblank⟩ := goesOn_iff.mp h
  simp only [ticks, hresult, hblank, Bool.false_eq_true, if_false]

/-- A step that does not go on is the last one. -/
theorem ticks_of_not_goesOn (h : s.goesOn = false) :
    (ticks (n + 1) s executed log).result =
        s.step.result.map (fun executing => executed + executing.toNat) ∧
      (ticks (n + 1) s executed log).session = s.step.session ∧
      (ticks (n + 1) s executed log).log = (log ++ s.step.log).toList := by
  have hstops := mt goesOn_iff.mpr (by rw [h]; exact Bool.false_ne_true)
  simp only [ticks]
  cases hresult : s.step.result with
  | error e => exact ⟨rfl, rfl, rfl⟩
  | ok executing =>
    cases executing with
    | false => exact ⟨rfl, rfl, rfl⟩
    | true =>
      have hblank : s.step.session.machine.awaitingBlank = true := by
        by_cases hblank : s.step.session.machine.awaitingBlank = true
        · exact hblank
        · exact absurd ⟨hresult, Bool.eq_false_iff.mpr hblank⟩ hstops
      dsimp only
      rw [if_pos hblank]
      exact ⟨rfl, rfl, rfl⟩

end Ticks

/-- The session and the log of a frame that has some steps left. -/
theorem ticks_stepped (n : Nat) (s : Session) (executed : Nat) (log : Array Record) :
    (ticks n s executed log).session = s.stepped (stepsIn n s) ∧
      (ticks n s executed log).log =
        log.toList ++ (List.range (stepsIn n s)).flatMap fun k => (s.stepped k).step.log := by
  -- the first step is taken off the front; what is left is a frame with one step fewer
  induction n generalizing s executed log with
  | zero => exact ⟨rfl, (List.append_nil _).symm⟩
  | succ n ih =>
    rw [stepsIn]
    cases hgoes : s.goesOn with
    | false =>
      obtain ⟨-, hsession, hlog⟩ := ticks_of_not_goesOn n executed log hgoes
      refine ⟨hsession, hlog.trans ?_⟩
      rw [if_neg Bool.false_ne_true, flatMap_stepped_succ s (fun t => t.step.log),
        Array.toList_appendList]
      exact congrArg _ (List.append_nil _).symm
    | true =>
      obtain ⟨hsession, hlog⟩ := ih s.step.session (executed + 1) (log ++ s.step.log)
      rw [ticks_of_goesOn n executed log hgoes, if_pos rfl]
      refine ⟨hsession, hlog.trans ?_⟩
      rw [flatMap_stepped_succ s (fun t => t.step.log), Array.toList_appendList,
        List.append_assoc]

theorem runFrame_log (s : Session) :
    s.runFrame.log = (List.range s.frameSteps).flatMap fun k => (s.stepped k).step.log := by
  have hticks := (ticks_stepped s.processor.platform.tickRate.toNat s 0 #[]).2
  unfold runFrame
  dsimp only
  split <;> exact hticks

theorem runFrame_result (s : Session) :
    s.runFrame.result = (ticks s.processor.platform.tickRate.toNat s 0 #[]).result := by
  unfold runFrame
  dsimp only
  split <;> rfl

/-- A frame that is refused ends as its last step has left it. -/
theorem runFrame_session_refused {s : Session} {e : Failure} (h : s.runFrame.result = .error e) :
    s.runFrame.session = s.stepped s.frameSteps := by
  rw [runFrame_result] at h
  unfold runFrame
  dsimp only
  rw [h]
  exact (ticks_stepped _ s 0 #[]).1

theorem runFrame_session {s : Session} {executed : Nat} (h : s.runFrame.result = .ok executed) :
    s.runFrame.session = (s.stepped s.frameSteps).endFrame := by
  rw [runFrame_result] at h
  unfold runFrame
  dsimp only
  rw [h]
  exact congrArg endFrame (ticks_stepped _ s 0 #[]).1

end Session

/-! ## The keys -/

/-- A step leaves the keys to the host. -/
theorem Processor.step_keypad (cpu : Processor) (m : Machine) :
    (cpu.step m).machine.keypad = m.keypad := by
  have hcourse := cpu.step_course m
  generalize cpu.step m = run at hcourse ⊢
  cases hcourse with
  | finished | outside | dry | unknown => rfl
  | stopped hf hb hi hn he | done hf hb hi hn he =>
    exact (Instruction.effect_footprint _ _ _ m).keypad

namespace Session

theorem step_session_keypad (s : Session) :
    s.step.session.machine.keypad = s.machine.keypad := by
  rcases s.step_parts with ⟨-, hm⟩ | ⟨-, hm⟩
  · rw [hm]
  · rw [hm, s.processor.step_keypad]

/-- The keys stay as the host has set them. -/
theorem stepped_keypad (s : Session) (n : Nat) :
    (s.stepped n).machine.keypad = s.machine.keypad := by
  induction n generalizing s with
  | zero => rfl
  | succ n ih => exact (ih s.step.session).trans s.step_session_keypad

section Keys

variable {s : Session} (hkeypad : s.machine.keypad.size = keyCount)

include hkeypad

/-- The states of all keys take the place of the keypad. -/
theorem setKeys_all (held : Vector Bool keyCount) :
    s.setKeys held.toList =
      (.ok (), { s with machine := { s.machine with keypad := held.toArray } }) := by
  have hset : (s.machine.keypad.mapIdx fun k before => held.toList.getD k before) =
      held.toArray := by
    refine Array.ext (by rw [Array.size_mapIdx, hkeypad, Vector.size_toArray]) ?_
    intro k _ hk
    rw [Array.getElem_mapIdx, List.getD_eq_getElem?_getD,
      List.getElem?_eq_getElem (by simpa using hk)]
    rfl
  have hcount : ¬ held.toArray.size < held.toList.length := by
    rw [Vector.size_toArray, Vector.length_toList]
    exact Nat.lt_irrefl _
  unfold setKeys
  dsimp only
  rw [hset, if_neg hcount]

theorem clearKeys_keypad :
    s.clearKeys.machine.keypad = Array.replicate keyCount false := by
  rw [clearKeys, Array.map_const', hkeypad]

end Keys

end Session

end Chip8
