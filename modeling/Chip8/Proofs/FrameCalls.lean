/-
  A frame is nothing but calls of a step. It makes as many as the platform allows, or fewer if one
  of them executes nothing, or executes a draw where a draw ends the frame; then it takes back the
  wish to end it. A frame asks for the wish and not for the draw, which makes no difference as long
  as the wish is not there at the beginning. And it never is: every operation but a single step
  leaves a session without it (`frame_is_steps`).
-/
import Chip8.Proofs.Discipline
import Chip8.Proofs.Independence
import Chip8.Proofs.Reports
namespace Chip8

/-! ## Steps that are not refused -/

namespace Machine

/-- The parts of the machine have their sizes, and the delay timer holds a byte. -/
structure Safe (m : Machine) : Prop extends m.Shaped where
  delay : 0 ≤ m.delay ∧ m.delay ≤ 255

variable {m : Machine}

theorem WellFormed.safe (hm : m.WellFormed) : m.Safe := ⟨hm.toShaped, hm.delay⟩

/-- Only a fault of the guest stops a step. -/
theorem Safe.stop?_fault (hm : m.Safe) {e : Failure} (h : m.stop? = some e) :
    ∃ f, e = .fault f := by
  unfold stop? at h
  split at h
  · obtain ⟨i, -, hi⟩ := Option.bind_eq_some_iff.mp h
    cases i with
    | ret | call target =>
      simp only [Instruction.failureOn, Option.ite_none_right_eq_some, Option.some.injEq] at hi
      exact ⟨_, hi.2.symm⟩
    | readDelay x =>
      have hdelay := hm.delay
      rw [Instruction.failureOn, if_pos (by omega)] at hi
      cases hi
    | _ => cases hi
  · cases h
    exact ⟨_, rfl⟩

theorem Safe.countDown (hm : m.Safe) : m.countDown.Safe := by
  have hdelay := hm.delay
  exact { hm with delay := by simp only [Machine.countDown]; split <;> omega }

end Machine

namespace Processor

theorem step_safe (cpu : Processor) {m : Machine} (hm : m.Safe) : (cpu.step m).machine.Safe := by
  have hcourse := cpu.step_course m
  generalize cpu.step m = run at hcourse ⊢
  cases hcourse with
  | finished | outside | dry => exact hm
  | unknown => exact Machine.Safe.countDown { hm with }
  | stopped hf hb hi hn he =>
    rw [Instruction.machine_of_failure hm.toShaped he]
    exact hm
  | @done hf hb i hi number source hn he =>
    have hdelay := (Instruction.effect_footprint cpu.platform number i m).delay
    refine Machine.Safe.countDown ⟨Instruction.effect_shaped hm.toShaped _ _ _, ?_⟩
    rw [hdelay]
    exact Instruction.delayAfter_bounds hm.delay i

theorem step_fault {cpu : Processor} (hcpu : cpu.source.Endless) {m : Machine} (hm : m.Safe)
    {e : Failure} (h : (cpu.step m).result = .error e) : ∃ f, e = .fault f := by
  cases hf : m.isFinished with
  | true =>
    rw [step_eq_of_finished cpu hf] at h
    cases h
  | false =>
    rcases step_result hcpu hm.toShaped hf with ⟨g, hstop, hr⟩ | ⟨-, tone, hr⟩
    · rw [hr] at h
      cases h
      exact hm.stop?_fault hstop
    · rw [hr] at h
      cases h

end Processor

namespace Session

/-- No step of the session is refused. -/
structure Safe (s : Session) : Prop where
  machine : s.machine.Safe
  source : s.processor.source.Endless

theorem Safe.step {s : Session} (hs : s.Safe) :
    s.step.session.Safe ∧ ∃ executed, s.step.result = .ok executed := by
  have hmachine : s.step.session.machine.Safe := by
    rcases s.step_parts with ⟨-, hm⟩ | ⟨-, hm⟩
    · rw [hm]
      exact hs.machine
    · rw [hm]
      exact s.processor.step_safe hs.machine
  refine ⟨⟨hmachine, step_endless hs.source⟩, ?_⟩
  have hcourse := s.step_course
  generalize s.step = reply at hcourse ⊢
  cases hcourse with
  | idle | halted | finished | ticked => exact ⟨_, rfl⟩
  | refused _ hr =>
    obtain ⟨f, hf⟩ := Processor.step_fault hs.source hs.machine hr
    cases hf

end Session

/-! ## The wish to end the frame -/

theorem Instruction.endsFrame_iff {d : Dialect} {i : Instruction} :
    i.endsFrame d = true ↔ d.drawEndsFrame = true ∧ ∃ x y rows, i = .draw x y rows := by
  cases i with
  | draw x y rows => exact ⟨fun h => ⟨h, x, y, rows, rfl⟩, And.left⟩
  | _ => exact ⟨nofun, nofun⟩

/-- The next word is a draw, on a platform where a draw ends the frame. -/
def Processor.DrawsLast (cpu : Processor) (m : Machine) : Prop :=
  cpu.platform.dialect.drawEndsFrame = true ∧
    ∃ (x y : Register) (rows : Fin 16), m.fetched? = some (wordOfNibbles 0xD x y rows)

namespace Processor

theorem drawsLast_iff {cpu : Processor} {m : Machine} (hf : m.isFinished = false) :
    cpu.DrawsLast m ↔
      ∃ i, m.instruction? = some i ∧ i.endsFrame cpu.platform.dialect = true := by
  constructor
  · rintro ⟨hends, x, y, rows, hword⟩
    have hi := (Machine.fetched?_eq_some_iff (i := .draw x y rows)).mp hword
    exact ⟨_, hi.2, hends⟩
  · rintro ⟨i, hi, hends⟩
    obtain ⟨hends, x, y, rows, rfl⟩ := Instruction.endsFrame_iff.mp hends
    exact ⟨hends, x, y, rows, Machine.fetched?_eq_some_iff.mpr ⟨hf, hi⟩⟩

/-- The wish comes up with a draw that is done, and with nothing else. -/
theorem step_awaitingBlank (cpu : Processor) {m : Machine} (hblank : m.awaitingBlank = false) :
    (cpu.step m).machine.awaitingBlank = true ↔
      (∃ tone, (cpu.step m).result = .ok (some tone)) ∧ cpu.DrawsLast m := by
  have hcourse := cpu.step_course m
  generalize cpu.step m = run at hcourse ⊢
  cases hcourse with
  | finished | outside | dry =>
    rw [hblank]
    exact ⟨nofun, nofun⟩
  | unknown hf hb hi =>
    have hsame : m.advance.countDown.awaitingBlank = m.awaitingBlank := rfl
    rw [drawsLast_iff hf, Machine.instruction?_of_inBounds hb, hi, hsame, hblank]
    exact ⟨nofun, nofun⟩
  | stopped hf hb hi hn he =>
    rw [Instruction.effect_awaitingBlank, he, hblank]
    exact ⟨nofun, nofun⟩
  | @done hf hb i hi number source hn he =>
    have hsame : (i.effect cpu.platform number m).machine.countDown.awaitingBlank =
      (i.effect cpu.platform number m).machine.awaitingBlank := rfl
    rw [drawsLast_iff hf, Machine.instruction?_of_inBounds hb, hi, hsame,
      Instruction.effect_awaitingBlank, he, hblank, Bool.or_false, Option.isNone_none,
      Bool.true_and]
    constructor
    · intro hends
      exact ⟨⟨_, rfl⟩, i, rfl, hends⟩
    · rintro ⟨-, j, hj, hends⟩
      cases hj
      exact hends

end Processor

namespace Session

theorem step_awaitingBlank {s : Session} (hblank : s.machine.awaitingBlank = false) :
    s.step.session.machine.awaitingBlank = true ↔
      s.step.result = .ok true ∧ s.processor.DrawsLast s.machine := by
  have hstep := s.processor.step_awaitingBlank hblank
  have hcourse := s.step_course
  generalize s.step = reply at hcourse ⊢
  cases hcourse with
  | idle =>
    rw [hblank]
    exact ⟨nofun, nofun⟩
  | halted _ hr | refused _ hr | finished _ hr =>
    have hsame : s.ran.machine = (s.processor.step s.machine).machine := rfl
    simp only [powerOff, hsame, hstep, hr]
    exact ⟨nofun, nofun⟩
  | ticked _ hr =>
    refine hstep.trans ?_
    rw [hr]
    exact ⟨fun h => ⟨rfl, h.2⟩, fun h => ⟨⟨_, rfl⟩, h.2⟩⟩

/-! ## The calls of a frame -/

/-- A call of a step is the last one of a frame, however many the platform allows: it executes
nothing, or it executes a draw where a draw ends the frame. -/
def EndsFrame (s : Session) : Prop :=
  s.step.result = .ok false ∨ s.step.result = .ok true ∧ s.processor.DrawsLast s.machine

/-- Which call of a step is the last one of a frame, counted from 0. -/
structure LastCall (s : Session) (last : Nat) : Prop where
  within : last < s.processor.platform.tickRate
  before : ∀ k < last, ¬ (s.stepped k).EndsFrame
  ends : last + 1 = s.processor.platform.tickRate ∨ (s.stepped last).EndsFrame

/-- How many of the first calls of a step say that they have executed an instruction. -/
def executedIn (s : Session) (calls : Nat) : Nat :=
  (List.range calls).countP fun k => decide ((s.stepped k).step.result = .ok true)

theorem executedIn_le (s : Session) (calls : Nat) : s.executedIn calls ≤ calls := by
  have hle := List.countP_le_length (p := fun k => decide ((s.stepped k).step.result = .ok true))
    (l := List.range calls)
  rwa [List.length_range] at hle

theorem stepped_steps (s : Session) (calls : Nat) :
    (s.stepped calls).steps = s.steps + s.executedIn calls := by
  induction calls with
  | zero => rfl
  | succ calls ih =>
    have hlast : executedBy (s.stepped calls).step.result =
        [calls].countP fun k => decide ((s.stepped k).step.result = .ok true) := by
      rw [List.countP_singleton]
      cases (s.stepped calls).step.result with
      | error e => rfl
      | ok executed => cases executed <;> rfl
    rw [stepped_succ, step_steps, ih, hlast, executedIn, executedIn, List.range_succ,
      List.countP_append, Nat.add_assoc]

/-- The steps that a frame takes: all but the last one go on. -/
theorem stepsIn_succ (n : Nat) (s : Session) :
    ∃ last ≤ n, stepsIn (n + 1) s = last + 1 ∧ (∀ k < last, (s.stepped k).goesOn = true) ∧
      (last = n ∨ (s.stepped last).goesOn = false) := by
  induction n generalizing s with
  | zero =>
    refine ⟨0, Nat.le_refl 0, ?_, nofun, Or.inl rfl⟩
    rw [stepsIn]
    split <;> rfl
  | succ n ih =>
    rw [stepsIn]
    cases hgoes : s.goesOn with
    | false => exact ⟨0, Nat.zero_le _, rfl, nofun, Or.inr hgoes⟩
    | true =>
      obtain ⟨last, hle, hsteps, hbefore, hends⟩ := ih s.step.session
      refine ⟨last + 1, Nat.succ_le_succ hle, congrArg (· + 1) hsteps, ?_, ?_⟩
      · intro k hk
        cases k with
        | zero => exact hgoes
        | succ k => exact hbefore k (Nat.lt_of_succ_lt_succ hk)
      · exact hends.imp_left (congrArg (· + 1))

section Safe

variable {s : Session} (hs : s.Safe) (hblank : s.machine.awaitingBlank = false)

include hs hblank

theorem goesOn_eq_false_iff : s.goesOn = false ↔ s.EndsFrame := by
  obtain ⟨-, executed, hresult⟩ := hs.step
  rw [← Bool.not_eq_true, goesOn_iff, ← Bool.not_eq_true, step_awaitingBlank hblank, EndsFrame,
    hresult]
  cases executed <;> simp

/-- Up to the last call of a frame no step is refused, and there is no wish to end the frame. -/
theorem stepped_safe {last : Nat} (hgoes : ∀ k < last, (s.stepped k).goesOn = true) {k : Nat}
    (hk : k ≤ last) : (s.stepped k).Safe ∧ (s.stepped k).machine.awaitingBlank = false := by
  induction k with
  | zero => exact ⟨hs, hblank⟩
  | succ k ih =>
    obtain ⟨hsafe, -⟩ := ih (Nat.le_of_succ_le hk)
    rw [stepped_succ]
    exact ⟨hsafe.step.1, (goesOn_iff.mp (hgoes k hk)).2⟩

theorem frameSteps_lastCall (hrate : 1 ≤ s.processor.platform.tickRate) :
    ∃ last, s.frameSteps = last + 1 ∧ s.LastCall last := by
  obtain ⟨n, hn⟩ : ∃ n, s.processor.platform.tickRate.toNat = n + 1 :=
    ⟨s.processor.platform.tickRate.toNat - 1, by omega⟩
  obtain ⟨last, hle, hsteps, hgoes, hends⟩ := stepsIn_succ n s
  have hends_iff : ∀ k ≤ last, ((s.stepped k).goesOn = false ↔ (s.stepped k).EndsFrame) := by
    intro k hk
    obtain ⟨hsafe, hcalm⟩ := stepped_safe hs hblank hgoes hk
    exact goesOn_eq_false_iff hsafe hcalm
  refine ⟨last, by rw [frameSteps, hn, hsteps], by omega, ?_, ?_⟩
  · intro k hk hended
    have hstops := (hends_iff k (Nat.le_of_lt hk)).mpr hended
    rw [hgoes k hk] at hstops
    cases hstops
  · rcases hends with rfl | hstops
    · exact Or.inl (by omega)
    · exact Or.inr ((hends_iff last (Nat.le_refl last)).mp hstops)

end Safe

/-- The frame comes to what some calls of a step come to, one after another, with the wish to end it
taken back: it leaves the session that they leave, it tells what they tell, and its result is how
many of them have executed an instruction. -/
structure MadeOf (s : Session) (calls : Nat) (frame : Reply Nat) : Prop where
  session : frame.session = (s.stepped calls).endFrame
  log : frame.log = (List.range calls).flatMap fun k => (s.stepped k).step.log
  result : frame.result = .ok (s.executedIn calls)
  steps : frame.session.steps = s.steps + s.executedIn calls
  within : s.executedIn calls ≤ s.processor.platform.tickRate

theorem Safe.runFrame_madeOf {s : Session} (hs : s.Safe)
    (hblank : s.machine.awaitingBlank = false) (hrate : 1 ≤ s.processor.platform.tickRate) :
    ∃ last, s.LastCall last ∧ s.MadeOf (last + 1) s.runFrame := by
  obtain ⟨last, hframe, hlast⟩ := frameSteps_lastCall hs hblank hrate
  obtain ⟨count, hcount⟩ := runFrame_ok_of_steps (fun _ => Safe.step) hs
  have hsession := runFrame_session hcount
  have hlog := s.runFrame_log
  rw [hframe] at hsession hlog
  have hsteps : s.runFrame.session.steps = s.steps + s.executedIn (last + 1) := by
    rw [hsession]
    exact s.stepped_steps (last + 1)
  have hexecuted : count = s.executedIn (last + 1) :=
    Nat.add_left_cancel ((runFrame_steps hcount).symm.trans hsteps)
  have hle := s.executedIn_le (last + 1)
  have hwithin := hlast.within
  exact ⟨last, hlast, hsession, hlog, hexecuted ▸ hcount, hsteps, by omega⟩

/-! ## Between operations -/

section Operations

variable {s : Session} (hblank : s.machine.awaitingBlank = false)

include hblank

/-- A frame that is refused has no wish to take back. -/
theorem ticks_refused {n executed : Nat} {log : Array Record} {e : Failure}
    (h : (ticks n s executed log).result = .error e) :
    (ticks n s executed log).session.machine.awaitingBlank = false := by
  induction n generalizing s executed log with
  | zero => cases h
  | succ n ih =>
    cases hgoes : s.goesOn with
    | true =>
      rw [ticks_of_goesOn n executed log hgoes] at h ⊢
      exact ih (goesOn_iff.mp hgoes).2 h
    | false =>
      obtain ⟨hresult, hsession, -⟩ := ticks_of_not_goesOn n executed log hgoes
      rw [hresult] at h
      rw [hsession, ← Bool.not_eq_true, step_awaitingBlank hblank]
      rintro ⟨hok, -⟩
      rw [hok] at h
      cases h

theorem runFrame_awaitingBlank : s.runFrame.session.machine.awaitingBlank = false := by
  cases h : s.runFrame.result with
  | ok count =>
    rw [runFrame_session h]
    rfl
  | error e =>
    rw [runFrame_session_refused h, frameSteps, ← (ticks_stepped _ s 0 #[]).1]
    exact ticks_refused hblank (s.runFrame_result.symm.trans h)

theorem pause_awaitingBlank : s.pause.machine.awaitingBlank = false := by
  unfold pause
  split
  · exact hblank
  · exact hblank
  · exact hblank

theorem perform_awaitingBlank [Capacity] {op : Operation} (hop : op ≠ .step) :
    (s.perform op).machine.awaitingBlank = false := by
  cases op with
  | load program =>
    cases hboot : Machine.boot s.processor.platform program with
    | error e =>
      rw [perform, load_of_boot_error hboot]
      exact hblank
    | ok m =>
      obtain ⟨screen, -, rfl⟩ := Machine.boot_eq_ok hboot
      rw [perform, load_of_boot hboot]
      rfl
  | step => exact absurd rfl hop
  | runFrame => exact runFrame_awaitingBlank hblank
  | setKeys | clearKeys | powerOff => exact hblank
  | pause => exact pause_awaitingBlank hblank

theorem after_awaitingBlank [Capacity] {history : List Operation} (hcalls : .step ∉ history) :
    (s.after history).machine.awaitingBlank = false := by
  induction history generalizing s with
  | nil => exact hblank
  | cons op history ih =>
    have hop : op ≠ .step := fun h => hcalls (h ▸ List.mem_cons_self)
    exact ih (perform_awaitingBlank hblank hop) fun h => hcalls (List.mem_cons_of_mem _ h)

end Operations

theorem new_awaitingBlank [Capacity] {cpu : Processor} {s : Session}
    (hnew : Session.new cpu = .ok s) : s.machine.awaitingBlank = false := by
  unfold Session.new Machine.new at hnew
  cases hscreen : Screen.ofSize cpu.platform.width cpu.platform.height
      cpu.platform.dialect.spritesWrap with
  | error e =>
    rw [hscreen] at hnew
    cases hnew
  | ok screen =>
    rw [hscreen] at hnew
    cases hnew
    rfl

end Session

/-! ## The frames of the host -/

namespace Host

namespace Emulator

variable {τ : Type} {e : Emulator τ} (hblank : e.session.machine.awaitingBlank = false)

include hblank

theorem begun_awaitingBlank (b : Batch) : (e.begun b).machine.awaitingBlank = false := by
  have hcommanded : (e.commanded b).machine.awaitingBlank = false := by
    unfold commanded
    split
    · exact Session.pause_awaitingBlank hblank
    · exact hblank
  exact hcommanded

theorem runFrame_awaitingBlank (b : Batch) :
    (e.runFrame b).emulator.session.machine.awaitingBlank = false := by
  have hbegun := begun_awaitingBlank hblank b
  have hcourse := e.runFrame_course b
  generalize e.runFrame b = turn at hcourse ⊢
  cases hcourse with
  | quit => exact hblank
  | overset => exact hbegun
  | refused => exact Session.runFrame_awaitingBlank hbegun
  | drawn => rfl

end Emulator

variable {κ τ : Type} [Time τ]

theorem Emulator.reportAt_session {e next : Emulator τ} {now : τ} {reports : List (Event τ)}
    (h : e.reportAt now = .ok (next, reports)) : next.session = e.session := by
  cases hdue : Time.reached e.nextReport now with
  | false =>
    rw [reportAt_early hdue] at h
    cases h
    rfl
  | true =>
    obtain ⟨seconds, -, rfl, -⟩ := reportAt_due hdue h
    rfl

theorem Loop.Passes.awaitingBlank {clock : Clock κ τ} {first l : Loop κ τ} {on : Bool}
    {times : List τ} (h : Passes clock first on l times)
    (hfirst : first.emulator.session.machine.awaitingBlank = false) :
    l.emulator.session.machine.awaitingBlank = false := by
  induction h with
  | none => exact hfirst
  | more _ hpass ih =>
    obtain ⟨now, watch, e, reports, delay?, -, hreport, -, hemulator, -⟩ := Loop.pass_ok hpass
    rw [hemulator]
    refine Emulator.runFrame_awaitingBlank ?_ _
    rw [Emulator.reportAt_session hreport]
    exact ih

end Host

open Host

/-- A frame is a number of calls of a step, whatever the session is doing. The calls go on until
there are as many as the platform allows, or one executes nothing, or one executes a draw where a
draw ends the frame; then the wish to end the frame is taken back. The frame says how many
instructions they have executed, and as many are added to the steps of the session.

This asks that there is no such wish before the frame. And there is none before or after any
operation of a host that calls no step by itself, so there is none before any frame of the loop,
whatever was done to the session before the loop began and whatever the user does in it. -/
theorem frame_is_steps [Capacity] :
    (∀ s : Session, s.machine.WellFormed → s.processor.source.Endless →
      s.machine.awaitingBlank = false → 1 ≤ s.processor.platform.tickRate →
        ∃ last, s.LastCall last ∧ s.MadeOf (last + 1) s.runFrame) ∧
    ∀ (cpu : Processor) (s₀ : Session), Session.new cpu = .ok s₀ →
      ∀ history : List Operation, .step ∉ history →
        (s₀.after history).machine.awaitingBlank = false ∧
        ∀ (κ τ : Type) [Time τ] (clock : Clock κ τ) (first l : Loop κ τ) (keyboard : Keyboard)
          (times : List τ), first.emulator = .new (s₀.after history) keyboard →
          Loop.Passes clock first true l times →
          ∀ (now : τ) (e : Emulator τ) (reports : List (Event τ)),
            l.emulator.reportAt now = .ok (e, reports) →
            ∀ b : Batch, (e.begun b).machine.awaitingBlank = false := by
  constructor
  · intro s hs hsource hblank hrate
    exact Session.Safe.runFrame_madeOf ⟨hs.safe, hsource⟩ hblank hrate
  · intro cpu s₀ hnew history hcalls
    have hblank := Session.after_awaitingBlank (Session.new_awaitingBlank hnew) hcalls
    refine ⟨hblank, ?_⟩
    intro κ τ _ clock first l keyboard times hfirst hpasses now e reports hreport b
    refine Emulator.begun_awaitingBlank ?_ b
    rw [Emulator.reportAt_session hreport]
    exact hpasses.awaitingBlank (by rw [hfirst]; exact hblank)

/-- A program that draws with its second instruction and then again and again. -/
def redrawingProgram : List UInt8 := [0x60, 0x01, 0xD0, 0x11, 0x12, 0x02]

/-- A session on the platform "cosmacvip", without a program. -/
def vipSession : Session where
  processor := { modernProcessor with platform := cosmacVip }
  machine := Machine.fresh cosmacVip

/-- A loop that begins after the first frame of the redrawing program. -/
def vipLoop [Capacity] : Loop Nat ℚ where
  emulator := .new (vipSession.after [.load redrawingProgram, .runFrame])
    (.ofKeymap ⟨Vector.ofFn fun k => k.val⟩)
  feed := []
  clock := 0
  deadline := 0

attribute [local instance] Capacity.least in
theorem frame_is_steps_vip :
    (∃ last, (vipSession.after [.load redrawingProgram]).LastCall last ∧
      (vipSession.after [.load redrawingProgram]).executedIn (last + 1) = 2) ∧
      (vipSession.after [.load redrawingProgram, .runFrame]).machine.awaitingBlank = false ∧
      ∃ (l : Loop Nat ℚ) (e : Emulator ℚ) (reports : List (Event ℚ)),
        vipLoop.pass halfSeconds = (.ok true, l) ∧ l.emulator.reportAt 1 = .ok (e, reports) ∧
          (e.begun {}).machine.awaitingBlank = false := by
  have hsized : cosmacVip.Sized := Platform.sized_of_geometry rfl
  obtain ⟨hnew, hwell⟩ := Session.new_wellFormedOn hsized
    (rfl : Processor.platform { modernProcessor with platform := cosmacVip } = cosmacVip)
  have hloaded := Session.after_wellFormedOn hsized hwell [.load redrawingProgram]
  have hresult : (vipSession.after [.load redrawingProgram]).runFrame.result = .ok 2 := by
    decide +kernel
  have hgoes : (vipLoop.pass halfSeconds).1 = .ok true := by decide +kernel
  have hpass : vipLoop.pass halfSeconds = (.ok true, (vipLoop.pass halfSeconds).2) :=
    Prod.ext hgoes rfl
  obtain ⟨⟨e, reports⟩, hreport⟩ :
      ∃ r, (vipLoop.pass halfSeconds).2.emulator.reportAt 1 = .ok r := by
    unfold Emulator.reportAt
    split <;> exact ⟨_, rfl⟩
  obtain ⟨hframe, hbetween⟩ := frame_is_steps
  obtain ⟨last, hlast, hmade⟩ := hframe (vipSession.after [.load redrawingProgram])
    hloaded.machine.toWellFormed (fun _ => ⟨_, rfl⟩) rfl (by decide)
  obtain ⟨hblank, hloop⟩ :=
    hbetween _ vipSession hnew [.load redrawingProgram, .runFrame] (by simp)
  refine ⟨⟨last, hlast, Except.ok.inj (hmade.result.symm.trans hresult)⟩, hblank, _, e, reports,
    hpass, hreport, ?_⟩
  exact hloop Nat ℚ halfSeconds vipLoop _ _ _ rfl (.more .none hpass) 1 e reports hreport {}

end Chip8
