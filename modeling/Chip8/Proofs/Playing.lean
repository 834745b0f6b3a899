/-
  A session that is played to its end comes to what its program comes to when it is run step after
  step. The host paces the frames by its clock, and nobody is at the keys. A pass of its loop is
  then one frame of the session (`Loop.pass_idle`), so the session follows the computer from pass
  to pass, and each pass takes it further or ends it. Neither the clock nor the speed of the
  platform, nor whether a draw ends the frame, can be told from the outcome
  (`cadence_changes_nothing`).
-/
import Chip8.Host.Emulator
import Chip8.Proofs.Cadence
namespace Chip8

/-! ## Nobody at the keys -/

namespace Session

variable {s : Session} (h : s.machine.keypad = Array.replicate keyCount false)

include h

theorem setKeys_released :
    s.setKeys (Vector.replicate keyCount false).toList = (.ok (), s) := by
  rw [setKeys_all (by rw [h, Array.size_replicate]), Vector.toArray_replicate, ← h]

theorem clearKeys_released : s.clearKeys = s := by
  have hkeypad : (s.machine.keypad.map fun _ => false) = s.machine.keypad := by
    rw [h, Array.map_replicate]
  unfold clearKeys
  rw [hkeypad]

end Session

namespace Host

/-- The user holds no key and gives no command, and no batch leaves a key held. -/
structure Idle (k : Keyboard) (feed : List Batch) : Prop where
  released : k.held = Vector.replicate keyCount false
  quiet : ∀ b ∈ feed, b.quit = false ∧ b.pause = false ∧ k.apply b = k

variable {κ τ : Type} [Time τ]

/-- In all that the clock can come to from a state, a reading is a time with whole seconds, and no
sleep is too long for it. -/
def Clock.Steady (clock : Clock κ τ) (watch : κ) : Prop :=
  ∃ sound : κ → Prop, sound watch ∧
    (∀ w, sound w → ∃ now later seconds, clock.read w = .ok (now, later) ∧
      Time.seconds now = .ok seconds ∧ sound later) ∧
    ∀ delay w, sound w → ∃ later, clock.sleep delay w = .ok later ∧ sound later

theorem Clock.Steady.read {clock : Clock κ τ} {watch : κ} (h : clock.Steady watch) :
    ∃ now later seconds, clock.read watch = .ok (now, later) ∧ Time.seconds now = .ok seconds ∧
      clock.Steady later := by
  obtain ⟨sound, hwatch, hread, hsleep⟩ := h
  obtain ⟨now, later, seconds, hnow, hseconds, hlater⟩ := hread watch hwatch
  exact ⟨now, later, seconds, hnow, hseconds, sound, hlater, hread, hsleep⟩

theorem Clock.Steady.sleep {clock : Clock κ τ} {watch : κ} (h : clock.Steady watch) (delay : τ) :
    ∃ later, clock.sleep delay watch = .ok later ∧ clock.Steady later := by
  obtain ⟨sound, hwatch, hread, hsleep⟩ := h
  obtain ⟨later, hlater, hsound⟩ := hsleep delay watch hwatch
  exact ⟨later, hlater, sound, hsound, hread, hsleep⟩

/-- A clock that shows some times in turn, however long one sleeps. -/
def Clock.ofReadings (readings : Nat → τ) : Clock Nat τ where
  read n := .ok (readings n, n + 1)
  sleep _ n := .ok n

theorem Clock.steady_ofReadings {readings : Nat → τ}
    (h : ∀ n, ∃ seconds, Time.seconds (readings n) = .ok seconds) (n : Nat) :
    (Clock.ofReadings readings).Steady n := by
  refine ⟨fun _ => True, trivial, fun w _ => ?_, fun _ w _ => ⟨w, rfl, trivial⟩⟩
  obtain ⟨seconds, hseconds⟩ := h w
  exact ⟨readings w, w + 1, seconds, rfl, hseconds, trivial⟩

/-! ## A pass of the loop -/

theorem Idle.headD {k : Keyboard} {feed : List Batch} (h : Idle k feed) :
    (feed.headD {}).quit = false ∧ (feed.headD {}).pause = false ∧ k.apply (feed.headD {}) = k := by
  cases feed with
  | nil => exact ⟨rfl, rfl, rfl⟩
  | cons b feed => exact h.quiet b List.mem_cons_self

theorem Idle.tail {k : Keyboard} {feed : List Batch} (h : Idle k feed) : Idle k feed.tail :=
  ⟨h.released, fun b hb => h.quiet b (List.mem_of_mem_tail hb)⟩

omit [Time τ] in
/-- A frame with nobody at the keys is a frame of the session. -/
theorem Emulator.runFrame_idle {e : Emulator τ} {b : Batch} (hquit : b.quit = false)
    (hpause : b.pause = false) (hkept : e.keyboard.apply b = e.keyboard)
    (hheld : e.keyboard.held = Vector.replicate keyCount false)
    (hbefore : e.session.machine.keypad = Array.replicate keyCount false)
    (hafter : e.session.runFrame.session.machine.keypad = Array.replicate keyCount false)
    {executed : Nat} (hok : e.session.runFrame.result = .ok executed) :
    (e.runFrame b).result = .ok (e.session.runFrame.session.status != .off) ∧
      (e.runFrame b).emulator.session = e.session.runFrame.session ∧
      (e.runFrame b).emulator.keyboard = e.keyboard := by
  have hset := Session.setKeys_released hbefore
  have hclear := Session.clearKeys_released hafter
  unfold Emulator.runFrame
  simp only [hquit, hpause, hkept, hheld, hset, hok, hclear, Bool.false_eq_true, if_false, and_self]

namespace Loop

variable {clock : Clock κ τ}

/-- The loop waits for the next frame and changes nothing but the clock. -/
theorem wait_steady (l : Loop κ τ) (hclock : clock.Steady l.clock) (now : τ) :
    ∃ next : Loop κ τ, l.wait clock now = (.ok true, next) ∧ next.emulator = l.emulator ∧
      next.feed = l.feed ∧ clock.Steady next.clock := by
  obtain ⟨later, watch, -, hread, -, hwatch⟩ := hclock.read
  simp only [wait, hread]
  split
  · obtain ⟨woken, hsleep, hwoken⟩ := hwatch.sleep (nextDeadline l.deadline now - later)
    rw [hsleep]
    exact ⟨_, rfl, rfl, rfl, hwoken⟩
  · exact ⟨_, rfl, rfl, rfl, hwatch⟩

/-- A report changes nothing but the figures for the next one. -/
theorem reportAt_steady (e : Emulator τ) {now : τ} {seconds : Int}
    (h : Time.seconds now = .ok seconds) :
    ∃ (next : Emulator τ) (events : List (Event τ)), e.reportAt now = .ok (next, events) ∧
      next.session = e.session ∧ next.keyboard = e.keyboard := by
  unfold Emulator.reportAt
  split
  · rw [h]
    exact ⟨_, _, rfl, rfl, rfl⟩
  · exact ⟨_, _, rfl, rfl, rfl⟩

/-- Nobody is at the keys, and the clock is in order. -/
structure Undisturbed (clock : Clock κ τ) (l : Loop κ τ) : Prop where
  idle : Idle l.emulator.keyboard l.feed
  steady : clock.Steady l.clock

/-- A pass with nobody at the keys is a frame of the session. -/
theorem pass_idle {l : Loop κ τ} (hl : l.Undisturbed clock)
    (hbefore : l.emulator.session.machine.keypad = Array.replicate keyCount false)
    (hafter : l.emulator.session.runFrame.session.machine.keypad = Array.replicate keyCount false)
    {executed : Nat} (hok : l.emulator.session.runFrame.result = .ok executed) :
    ∃ next : Loop κ τ,
      l.pass clock = (.ok (l.emulator.session.runFrame.session.status != .off), next) ∧
      next.emulator.session = l.emulator.session.runFrame.session ∧ next.Undisturbed clock := by
  obtain ⟨now, watch, seconds, hread, hseconds, hwatch⟩ := hl.steady.read
  obtain ⟨e, reports, hreport, hsession, hkeyboard⟩ := reportAt_steady l.emulator hseconds
  obtain ⟨hquit, hpause, hkept⟩ := hl.idle.headD
  rw [← hkeyboard] at hkept
  rw [← hsession] at hbefore hafter hok ⊢
  obtain ⟨hresult, hturn, hboard⟩ := Emulator.runFrame_idle hquit hpause hkept
    (by rw [hkeyboard]; exact hl.idle.released) hbefore hafter hok
  have hidle : Idle (e.runFrame (l.feed.headD {})).emulator.keyboard l.feed.tail := by
    rw [hboard, hkeyboard]
    exact hl.idle.tail
  unfold pass
  simp only [hread, hreport, hresult]
  cases e.session.runFrame.session.status != .off with
  | false => exact ⟨_, rfl, hturn, hidle, hwatch⟩
  | true =>
    dsimp only
    obtain ⟨next, hwait, hemulator, hfeed, hclock⟩ := wait_steady
      { l with
        emulator := (e.runFrame (l.feed.headD {})).emulator
        feed := l.feed.tail
        clock := watch
        events := l.events ++ reports ++ (e.runFrame (l.feed.headD {})).events
        log := l.log ++ (e.runFrame (l.feed.headD {})).log } hwatch now
    refine ⟨next, hwait, ?_, ?_, hclock⟩
    · rw [hemulator]
      exact hturn
    · rw [hemulator, hfeed]
      exact hidle

/-! ## Runs of the loop -/

section Follows

variable [Capacity] {p : Platform} {c : Computer}

/-- A pass with nobody at the keys ends the loop and the session, or takes the session further. -/
theorem pass_follows (hp : p.Sized) (hrate : 1 ≤ p.tickRate) {l : Loop κ τ}
    (hl : l.Undisturbed clock) (h : l.emulator.session.Follows p c)
    (hrunning : l.emulator.session.status = .running) :
    ∃ (on : Bool) (next : Loop κ τ), l.pass clock = (.ok on, next) ∧ next.Undisturbed clock ∧
      next.emulator.session.Follows p c ∧
      next.emulator.session.status = (if on then .running else .off) ∧
      (on = true → l.emulator.session.steps < next.emulator.session.steps) := by
  obtain ⟨hframe, hprogress⟩ := h.runFrame hp hrate hrunning
  obtain ⟨executed, hok⟩ := Session.runFrame_ok hp h.toGuarded
  obtain ⟨next, hpass, hsession, hnext⟩ := pass_idle hl h.released hframe.released hok
  refine ⟨_, next, hpass, hnext, ?_⟩
  rw [hsession]
  rcases hframe.phase with hunder | hended
  · rw [hunder.status] at hprogress ⊢
    exact ⟨hframe, rfl, fun _ => hprogress.resolve_left nofun⟩
  · rw [hended.status]
    exact ⟨hframe, rfl, nofun⟩

/-- A loop that ends has followed the computer to its end. -/
theorem run_follows (hp : p.Sized) (hrate : 1 ≤ p.tickRate) {passes : Nat} {l final : Loop κ τ}
    {result : Except Failure Unit} (hl : l.Undisturbed clock)
    (h : l.emulator.session.Follows p c) (hrunning : l.emulator.session.status = .running)
    (hrun : l.run clock passes = some (result, final)) :
    result = .ok () ∧ final.emulator.session.Follows p c ∧
      final.emulator.session.status = .off := by
  induction passes generalizing l with
  | zero => cases hrun
  | succ passes ih =>
    obtain ⟨on, next, hpass, hnext, hfollows, hstatus, -⟩ := pass_follows hp hrate hl h hrunning
    simp only [run, hpass] at hrun
    cases on with
    | true => exact ih hnext hfollows hstatus hrun
    | false =>
      cases hrun
      exact ⟨rfl, hfollows, hstatus⟩

/-- The loop ends if the computer does, at the latest after one pass for each step. -/
theorem run_ends (hp : p.Sized) (hrate : 1 ≤ p.tickRate) {n : Nat} {fault : Option Fault}
    (hhalts : c.HaltsAfter n fault) {passes : Nat} {l : Loop κ τ} (hl : l.Undisturbed clock)
    (h : l.emulator.session.Follows p c) (hrunning : l.emulator.session.status = .running)
    (hpasses : n < l.emulator.session.steps + passes) :
    ∃ result final, l.run clock passes = some (result, final) := by
  induction passes generalizing l with
  | zero =>
    have hle := hhalts.le h.going
    omega
  | succ passes ih =>
    obtain ⟨on, next, hpass, hnext, hfollows, hstatus, hmore⟩ :=
      pass_follows hp hrate hl h hrunning
    simp only [run, hpass]
    cases on with
    | true =>
      have hfurther := hmore rfl
      exact ih hnext hfollows hstatus (by omega)
    | false => exact ⟨_, _, rfl⟩

end Follows

end Loop

/-! ## Where a session is played -/

/-- A keyboard, what the user does in each frame, and a clock with its state. -/
structure Console (κ τ : Type) where
  keyboard : Keyboard
  feed : List Batch
  clock : Clock κ τ
  watch : κ

namespace Console

/-- The host plays a session, and its loop ends with a result. -/
def Ends (h : Console κ τ) (s : Session) (result : Except Failure Unit) (final : Loop κ τ) :
    Prop :=
  ∃ start passes,
    Loop.start h.clock (Emulator.new s h.keyboard) h.feed h.watch = .ok start ∧
      start.run h.clock passes = some (result, final)

/-- The host plays a session to its end. -/
def Finishes (h : Console κ τ) (s : Session) : Prop := ∃ result final, h.Ends s result final

/-- Nobody is at the keys, and the clock is in order. -/
structure Undisturbed (h : Console κ τ) : Prop where
  idle : Idle h.keyboard h.feed
  steady : h.clock.Steady h.watch

/-- Where the host plays the session to its end, it comes to what the computer comes to that halts
after a number of steps: to its machine, but for the wish to end the frame, to the number of its
steps, and to its fault. -/
def Matches (h : Console κ τ) (s : Session) (c : Computer) (n : Nat) (fault : Option Fault) :
    Prop :=
  ∀ result final, h.Ends s result final →
    result = .ok () ∧
      final.emulator.session.machine.settle = (c.alone (n + 1)).machine.settle ∧
      final.emulator.session.steps = n ∧ final.emulator.session.fault = fault

section Follows

variable {h : Console κ τ} {p : Platform} {c : Computer} {s : Session}

theorem start_undisturbed (hh : h.Undisturbed) (s : Session) :
    ∃ start : Loop κ τ,
      Loop.start h.clock (Emulator.new s h.keyboard) h.feed h.watch = .ok start ∧
      start.emulator.session = s ∧ start.Undisturbed h.clock := by
  obtain ⟨now, later, -, hread, -, hlater⟩ := hh.steady.read
  unfold Loop.start
  rw [hread]
  exact ⟨_, rfl, rfl, hh.idle, hlater⟩

variable [Capacity]

/-- The host plays a session to its end exactly if the computer that it follows halts. -/
theorem finishes_iff (hp : p.Sized) (hrate : 1 ≤ p.tickRate) (hh : h.Undisturbed)
    (hs : s.Follows p c) (hrunning : s.status = .running) : h.Finishes s ↔ c.Halts := by
  obtain ⟨start, hstart, rfl, hl⟩ := start_undisturbed hh s
  constructor
  · rintro ⟨result, final, start', passes, hstart', hrun⟩
    obtain rfl := Except.ok.inj (hstart.symm.trans hstart')
    obtain ⟨-, hfinal, hoff⟩ := Loop.run_follows hp hrate hl hs hrunning hrun
    exact ⟨_, _, hfinal.haltsAfter hoff⟩
  · rintro ⟨n, fault, hhalts⟩
    have hpasses : n < start.emulator.session.steps + (n + 1) := by omega
    obtain ⟨result, final, hrun⟩ := Loop.run_ends hp hrate hhalts hl hs hrunning hpasses
    exact ⟨result, final, start, _, hstart, hrun⟩

theorem matches_of_follows (hp : p.Sized) (hrate : 1 ≤ p.tickRate) (hh : h.Undisturbed)
    (hs : s.Follows p c) (hrunning : s.status = .running) {n : Nat} {fault : Option Fault}
    (hhalts : c.HaltsAfter n fault) : h.Matches s c n fault := by
  obtain ⟨start, hstart, rfl, hl⟩ := start_undisturbed hh s
  rintro result final ⟨start', passes, hstart', hrun⟩
  obtain rfl := Except.ok.inj (hstart.symm.trans hstart')
  obtain ⟨hresult, hfinal, hoff⟩ := Loop.run_follows hp hrate hl hs hrunning hrun
  obtain ⟨rfl, rfl⟩ := hhalts.unique (hfinal.haltsAfter hoff)
  rcases hfinal.phase with hunder | hended
  · rw [hunder.status] at hoff
    cases hoff
  · exact ⟨hresult, hended.machine, rfl, rfl⟩

end Follows

end Console

end Host

/-! ## Programs that start -/

theorem Platform.SameGame.holding_eq {p q : Platform} (h : p.SameGame q) (program : List UInt8) :
    Machine.holding q program = Machine.holding p program := by
  rw [h]
  rfl

namespace Session

section Started

variable [Capacity]

/-- A session that has started a program. -/
def started (cpu : Processor) (program : List UInt8) : Except Failure Session := do
  let s ← new cpu
  let reply := s.load program
  let _ ← reply.result
  return reply.session

/-- A session at the start of a program. -/
def opening (cpu : Processor) (program : List UInt8) : Session :=
  { processor := cpu, machine := Machine.holding cpu.platform program, status := .running }

/-- The computer that a session runs. -/
def computer (s : Session) : Computer := ⟨s.processor, s.machine⟩

variable {cpu : Processor} {program : List UInt8}

theorem started_eq (hp : cpu.platform.Sized) (hlength : program.length ≤ maxProgramSize) :
    started cpu program = .ok (opening cpu program) := by
  unfold started new load
  simp only [bind, Except.bind, pure, Except.pure, Machine.new_eq_fresh hp,
    Machine.load_fresh _ hlength]
  rfl

/-- A program that was started fits, and its session is at its start. -/
theorem started_eq_ok (hp : cpu.platform.Sized) {s : Session}
    (h : started cpu program = .ok s) :
    program.length ≤ maxProgramSize ∧ s = opening cpu program := by
  by_cases hlength : program.length ≤ maxProgramSize
  · rw [started_eq hp hlength] at h
    exact ⟨hlength, (Except.ok.inj h).symm⟩
  · have hnew := (new_wellFormedOn hp rfl).1
    have hload : ({ processor := cpu, machine := Machine.fresh cpu.platform } : Session).load
        program = ⟨.error _, _, []⟩ :=
      load_of_boot_error (Machine.boot_tooLong hp (Nat.lt_of_not_le hlength))
    unfold started at h
    rw [hnew] at h
    simp only [bind, Except.bind, hload] at h
    cases h

/-- A session that has started a program follows every computer that starts it and plays the same
game with the same random numbers. -/
theorem started_follows {other : Processor} (hp : other.platform.Sized)
    (hgame : cpu.platform.SameGame other.platform) (halike : cpu.Alike other)
    (hsource : other.source.Endless) (hlength : program.length ≤ maxProgramSize) :
    (opening other program).Follows other.platform (opening cpu program).computer where
  platform := rfl
  machine := Machine.holding_wellFormedOn hp hlength
  source := hsource
  calm := fun _ => rfl
  faults := nofun
  game := hgame
  released := rfl
  going := nofun
  phase := Or.inl ⟨rfl, halike, congrArg Machine.settle (hgame.holding_eq program)⟩

end Started

end Session

/-- Two hosts play a program that was started on platforms of one game. Each plays it to its end
exactly if it halts on either, and then both come to the same. -/
theorem Host.Console.opening_cadence [Capacity] {cpu other : Processor} (hp : cpu.platform.Sized)
    (hq : other.platform.Sized) (hratep : 1 ≤ cpu.platform.tickRate)
    (hrateq : 1 ≤ other.platform.tickRate) (hgame : cpu.platform.SameGame other.platform)
    (halike : cpu.Alike other) (hcpu : cpu.source.Endless) (hother : other.source.Endless)
    {program : List UInt8} (hlength : program.length ≤ maxProgramSize) {κ₁ κ₂ τ₁ τ₂ : Type}
    [Time τ₁] [Time τ₂] {a : Console κ₁ τ₁} {b : Console κ₂ τ₂} (ha : a.Undisturbed)
    (hb : b.Undisturbed) {c : Computer}
    (hc : c ∈ [(Session.opening cpu program).computer, (Session.opening other program).computer]) :
    (a.Finishes (.opening cpu program) ↔ c.Halts) ∧
      (b.Finishes (.opening other program) ↔ c.Halts) ∧
      ∀ n fault, c.HaltsAfter n fault →
        a.Matches (.opening cpu program) c n fault ∧
          b.Matches (.opening other program) c n fault := by
  -- each session follows both computers, since each plays the game of either
  have hfollows : (Session.opening cpu program).Follows cpu.platform c ∧
      (Session.opening other program).Follows other.platform c := by
    rcases List.mem_cons.mp hc with rfl | hc
    · exact ⟨Session.started_follows hp (.refl _) (.refl _) hcpu hlength,
        Session.started_follows hq hgame halike hother hlength⟩
    · obtain rfl := List.mem_singleton.mp hc
      exact ⟨Session.started_follows hp hgame.symm halike.symm hcpu hlength,
        Session.started_follows hq (.refl _) (.refl _) hother hlength⟩
  obtain ⟨hs, ht⟩ := hfollows
  exact ⟨finishes_iff hp hratep ha hs rfl, finishes_iff hq hrateq hb ht rfl, fun n fault hhalts =>
    ⟨matches_of_follows hp hratep ha hs rfl hhalts, matches_of_follows hq hrateq hb ht rfl hhalts⟩⟩

/-- The cadence of a host changes nothing. Take two configured platforms that differ at most in
their names, in their speeds, and in whether a draw ends the frame, and start a program of at most
3584 bytes on both with the same random numbers. Let two hosts play the sessions, each by a clock
of its own, with nobody at the keys. Then the one plays its session to its end exactly if the other
does, and exactly if the program halts when it is run step after step; and in the end both have its
machine, but for the wish to end the frame, the number of its steps, and its fault. -/
theorem cadence_changes_nothing [Capacity] {name₁ name₂ : String} {tickRate₁ tickRate₂ : Option Int}
    {overrides₁ overrides₂ : List (String × Option Bool)} {p q : Platform}
    (hp : Platform.configure name₁ tickRate₁ overrides₁ = .ok p)
    (hq : Platform.configure name₂ tickRate₂ overrides₂ = .ok q) (hgame : p.SameGame q)
    {program : List UInt8} (hlength : program.length ≤ 3584) (numbers : Nat → Int)
    (tracing : Bool) {κ₁ κ₂ τ₁ τ₂ : Type} [Host.Time τ₁] [Host.Time τ₂]
    {a : Host.Console κ₁ τ₁} {b : Host.Console κ₂ τ₂} (ha : a.Undisturbed) (hb : b.Undisturbed) :
    ∃ s t : Session,
      Session.started { platform := p, source := .ofNumbers numbers, tracing := tracing }
        program = .ok s ∧
      Session.started { platform := q, source := .ofNumbers numbers, tracing := tracing }
        program = .ok t ∧
      (a.Finishes s ↔ b.Finishes t) ∧
      ∀ c ∈ [s.computer, t.computer], (a.Finishes s ↔ c.Halts) ∧
        ∀ n fault, c.HaltsAfter n fault → a.Matches s c n fault ∧ b.Matches t c n fault := by
  have hsizedp := Platform.sized_of_geometry (Platform.geometry_of_configure hp)
  have hsizedq := Platform.sized_of_geometry (Platform.geometry_of_configure hq)
  have hratep := Platform.tickRate_of_configure hp
  have hrateq := Platform.tickRate_of_configure hq
  have hendless := Source.endless_ofNumbers numbers
  refine ⟨_, _, Session.started_eq hsizedp hlength, Session.started_eq hsizedq hlength, ?_⟩
  have halike : Processor.Alike
      { platform := p, source := .ofNumbers numbers, tracing := tracing }
      { platform := q, source := .ofNumbers numbers, tracing := tracing } := ⟨rfl, fun _ => rfl⟩
  have hcadence := fun {c} => Host.Console.opening_cadence (c := c) hsizedp hsizedq hratep hrateq
    hgame halike hendless hendless hlength ha hb
  obtain ⟨hfirst, hsecond, -⟩ := hcadence List.mem_cons_self
  refine ⟨hfirst.trans hsecond.symm, fun c hc => ?_⟩
  obtain ⟨hends, -, hmatches⟩ := hcadence hc
  exact ⟨hends, hmatches⟩

/-- A time as a number of frames. -/
structure Host.FrameTime where
  frames : Int

instance : Host.Time Host.FrameTime where
  add a b := ⟨a.frames + b.frames⟩
  sub a b := ⟨a.frames - b.frames⟩
  before a b := decide (a.frames < b.frames)
  reached time now := decide (time.frames ≤ now.frames)
  ofSeconds n := ⟨60 * n⟩
  seconds t := .ok (t.frames.tdiv 60)
  frame := ⟨1⟩

/-- A console with nobody at it, whose clock shows some times in turn. -/
def Host.idleConsole (readings : Nat → FrameTime) : Console Nat FrameTime where
  keyboard := .ofKeymap ⟨Vector.ofFn fun k => k.val⟩
  feed := []
  clock := .ofReadings readings
  watch := 0

theorem Host.idleConsole_undisturbed (readings : Nat → FrameTime) :
    (idleConsole readings).Undisturbed where
  idle := ⟨rfl, nofun⟩
  steady := Clock.steady_ofReadings (fun _ => ⟨_, rfl⟩) 0

/-- The platform "modern" with one instruction in a frame, which a draw ends. -/
def slowModern : Platform :=
  Platform.preset "modern" 1 { drawEndsFrame := true, spritesWrap := true, jumpAddsFirst := true }

/-- A program that draws and then returns from no call. -/
def drawingProgram : List UInt8 := [0xD0, 0x01, 0x00, 0xEE]

attribute [local instance] Capacity.least in
theorem cadence_changes_nothing_slow :
    Platform.configure "modern" none [] = .ok modernProcessor.platform ∧
      Platform.configure "modern" (some 1) [("vertical_blank_sync", some true)] = .ok slowModern ∧
      ∃ s t : Session,
        Session.started modernProcessor drawingProgram = .ok s ∧
        Session.started { modernProcessor with platform := slowModern } drawingProgram = .ok t ∧
        (Host.idleConsole fun n => ⟨n⟩).Finishes s ∧ (Host.idleConsole fun _ => ⟨0⟩).Finishes t ∧
        (Host.idleConsole fun n => ⟨n⟩).Matches s s.computer 1 (some .stackUnderflow) ∧
        (Host.idleConsole fun _ => ⟨0⟩).Matches t s.computer 1 (some .stackUnderflow) := by
  have hp : Platform.configure "modern" none [] = .ok modernProcessor.platform :=
    Platform.configure_of_find? rfl
  have hq : Platform.configure "modern" (some 1) [("vertical_blank_sync", some true)] =
      .ok slowModern := by
    have hnames : Platform.unknownNames [("vertical_blank_sync", some true)] = [] := by
      have hknown : (Feature.ofName? "vertical_blank_sync").isNone = false := by decide
      simp [Platform.unknownNames, hknown]
    unfold Platform.configure
    rw [hnames]
    rfl
  obtain ⟨s, t, hs, ht, hiff, hboth⟩ := cadence_changes_nothing hp hq rfl
    (by decide : drawingProgram.length ≤ 3584) (fun _ => 0) false
    (Host.idleConsole_undisturbed fun n => ⟨n⟩) (Host.idleConsole_undisturbed fun _ => ⟨0⟩)
  obtain ⟨hends, hmatches⟩ := hboth s.computer List.mem_cons_self
  have hhalts : s.computer.HaltsAfter 1 (some .stackUnderflow) := by
    obtain rfl : Session.opening modernProcessor drawingProgram = s := Except.ok.inj hs
    exact ⟨by decide +kernel, by decide +kernel⟩
  have hfinishes := hends.mpr ⟨_, _, hhalts⟩
  obtain ⟨ha, hb⟩ := hmatches _ _ hhalts
  exact ⟨hp, hq, s, t, hs, ht, hfinishes, hiff.mp hfinishes, ha, hb⟩

end Chip8
