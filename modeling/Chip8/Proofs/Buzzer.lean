/-
  What the sound mixer is told in a run of the loop. The speaker makes a call only where the buzzer
  changes, so its calls begin and stop the sound turn by turn (`Speaker.enableAll_calls`), and the
  sound goes on exactly while the buzzer is on. Each frame that is drawn sets the buzzer once, to
  the tone of its session, and nothing else sets it until the run returns, which switches it off
  (`Loop.Toned.tones`). Hence the sound is on after a frame exactly if the tone is, frames in turn
  with the tone on begin it once, and it is off when the run returns (`buzzer_follows_tone`).
-/
import Chip8.Host.Launch
import Chip8.Proofs.Reports
namespace Chip8.Host

/-! ## The speaker -/

/-- The sound goes on without end after a call, from whether it did before. -/
def MixerCall.loopingAfter (on : Bool) : MixerCall → Bool
  | .play loops => loops == -1
  | .stop => false
  | _ => on

/-- The sound goes on without end once some calls were made. -/
def looping (calls : List MixerCall) : Bool := calls.foldl MixerCall.loopingAfter false

/-- As many calls as said that stop and begin the sound turn by turn. It goes on before the first of
them, or not. -/
def turnByTurn : Bool → Nat → List MixerCall
  | _, 0 => []
  | true, n + 1 => .stop :: turnByTurn false n
  | false, n + 1 => .play (-1) :: turnByTurn true n

/-- The calls for a tone that was on or not and is now on or not. -/
def edgeCalls : Bool → Bool → List MixerCall
  | false, true => [.play (-1)]
  | true, false => [.stop]
  | _, _ => []

namespace Speaker

variable (s : Speaker)

theorem enable_calls (on : Bool) : (s.enable on).2 = edgeCalls s.enabled on := by
  obtain ⟨enabled⟩ := s
  revert enabled on
  decide

theorem enableAll_cons (on : Bool) (settings : List Bool) :
    (s.enableAll (on :: settings)).2 =
      (s.enable on).2 ++ ((s.enable on).1.enableAll settings).2 := rfl

theorem enableAll_append (past later : List Bool) :
    (s.enableAll (past ++ later)).2 =
      (s.enableAll past).2 ++ ((s.enableAll past).1.enableAll later).2 := by
  induction past generalizing s with
  | nil => rfl
  | cons on past ih =>
    rw [List.cons_append, enableAll_cons, ih, enableAll_cons, List.append_assoc]
    rfl

/-- The speaker is left as the last setting says. -/
theorem enableAll_speaker (settings : List Bool) :
    (s.enableAll settings).1 = ⟨settings.getLastD s.enabled⟩ := by
  induction settings generalizing s with
  | nil => rfl
  | cons on settings ih =>
    rw [List.getLastD_cons]
    exact ih (s.enable on).1

/-- The speaker begins and stops the sound turn by turn. -/
theorem enableAll_calls (settings : List Bool) :
    ∃ n, (s.enableAll settings).2 = turnByTurn s.enabled n := by
  induction settings generalizing s with
  | nil => exact ⟨0, rfl⟩
  | cons on settings ih =>
    obtain ⟨n, hcalls⟩ := ih (s.enable on).1
    rw [enableAll_cons, hcalls]
    obtain ⟨enabled⟩ := s
    match enabled, on with
    | false, false => exact ⟨n, rfl⟩
    | false, true => exact ⟨n + 1, rfl⟩
    | true, false => exact ⟨n + 1, rfl⟩
    | true, true => exact ⟨n, rfl⟩

/-- The sound goes on exactly while the speaker is on. -/
theorem loopingAfter_enableAll (settings : List Bool) :
    (s.enableAll settings).2.foldl MixerCall.loopingAfter s.enabled =
      settings.getLastD s.enabled := by
  induction settings generalizing s with
  | nil => rfl
  | cons on settings ih =>
    have hfirst : (s.enable on).2.foldl MixerCall.loopingAfter s.enabled =
        (s.enable on).1.enabled := by
      obtain ⟨enabled⟩ := s
      revert enabled on
      decide
    rw [enableAll_cons, List.foldl_append, hfirst, ih, List.getLastD_cons]
    rfl

/-- A speaker that is on makes no call as long as it is only switched on. -/
theorem enableAll_on {settings : List Bool} (h : ∀ on ∈ settings, on = true) :
    ((Speaker.mk true).enableAll settings).2 = [] := by
  induction settings with
  | nil => rfl
  | cons on settings ih =>
    obtain rfl := h on List.mem_cons_self
    exact ih fun on hon => h on (List.mem_cons_of_mem _ hon)

/-- A speaker that is off begins the sound once when it is only switched on. -/
theorem enableAll_block {settings : List Bool} (hne : settings ≠ [])
    (h : ∀ on ∈ settings, on = true) :
    ((Speaker.mk false).enableAll settings).2 = [.play (-1)] := by
  cases settings with
  | nil => exact absurd rfl hne
  | cons on settings =>
    obtain rfl := h on List.mem_cons_self
    exact congrArg (List.cons _) (enableAll_on fun on hon => h on (List.mem_cons_of_mem _ hon))

end Speaker

/-! ## A pass -/

namespace Emulator

variable {τ : Type} {e next : Emulator τ}

theorem reportAt_buzzer [Time τ] {now : τ} {reports : List (Event τ)}
    (h : e.reportAt now = .ok (next, reports)) : reports.filterMap Launch.buzzer? = [] := by
  cases hdue : Time.reached e.nextReport now with
  | false =>
    rw [reportAt_early hdue] at h
    cases h
    rfl
  | true =>
    obtain ⟨seconds, -, -, rfl⟩ := reportAt_due hdue h
    rfl

/-- A frame sets the buzzer once, to the tone of its session, unless the user quits. -/
theorem runFrame_buzzer {b : Batch} {on : Bool} (h : (e.runFrame b).result = .ok on) :
    (e.runFrame b).events.filterMap Launch.buzzer? =
      if b.quit then [] else [(e.runFrame b).emulator.session.tone] := by
  have hcourse := e.runFrame_course b
  generalize e.runFrame b = turn at h hcourse ⊢
  cases hcourse with
  | quit hquit =>
    rw [if_pos hquit]
    rfl
  | overset | refused => cases h
  | drawn hquit =>
    rw [hquit, if_neg Bool.false_ne_true]
    rfl

end Emulator

namespace Loop

variable {κ τ : Type}

/-- How the buzzer was set since the loop began. -/
def settings (l : Loop κ τ) : List Bool := l.events.toList.filterMap Launch.buzzer?

/-- The calls of a speaker for what the loop has done. -/
def buzzerCalls (l : Loop κ τ) : List MixerCall := (Speaker.enableAll {} l.settings).2

/-- The calls begin and stop the sound turn by turn, and after them it goes on, or it does not. -/
structure Sounds (l : Loop κ τ) (on : Bool) : Prop where
  turns : ∃ n, l.buzzerCalls = turnByTurn false n
  looping : looping l.buzzerCalls = on

theorem sounds_settings (l : Loop κ τ) : l.Sounds (l.settings.getLastD false) :=
  ⟨Speaker.enableAll_calls {} l.settings, Speaker.loopingAfter_enableAll {} l.settings⟩

variable [Time τ] {clock : Clock κ τ} {first l next : Loop κ τ} {on : Bool} {tones : List Bool}

theorem pass_settings (h : l.pass clock = (.ok on, next)) :
    next.settings = l.settings ++
      if (l.feed.headD {}).quit then [] else [next.emulator.session.tone] := by
  obtain ⟨now, watch, e, reports, delay?, -, hreport, hresult, hemulator, hevents⟩ := pass_ok h
  have hsleep : (delay?.toList.map Event.sleep).filterMap Launch.buzzer? = [] := by
    cases delay? <;> rfl
  rw [settings, hevents, List.filterMap_append, List.filterMap_append, List.filterMap_append,
    Emulator.reportAt_buzzer hreport, Emulator.runFrame_buzzer hresult, hsleep, hemulator,
    List.append_nil, List.append_nil, settings]

/-- Passes that were not stopped: whether the last one goes on, what it leaves, and the tone at the
end of each frame so far, the frames in which the user quits aside. -/
inductive Toned (clock : Clock κ τ) (first : Loop κ τ) : Bool → Loop κ τ → List Bool → Prop where
  | none : Toned clock first true first []
  | frame {l next : Loop κ τ} {tones : List Bool} {on : Bool}
    (before : Toned clock first true l tones) (hpass : l.pass clock = (.ok on, next))
    (hquit : (l.feed.headD {}).quit = false) :
    Toned clock first on next (tones ++ [next.emulator.session.tone])
  | quit {l next : Loop κ τ} {tones : List Bool} {on : Bool}
    (before : Toned clock first true l tones) (hpass : l.pass clock = (.ok on, next))
    (hquit : (l.feed.headD {}).quit = true) :
    Toned clock first on next tones

theorem Toned.settings_eq (h : Toned clock first on l tones) (hfirst : first.events = #[]) :
    l.settings = tones := by
  induction h with
  | none =>
    rw [settings, hfirst]
    rfl
  | frame _ hpass hquit ih => rw [pass_settings hpass, ih, hquit, if_neg Bool.false_ne_true]
  | quit _ hpass hquit ih => rw [pass_settings hpass, ih, hquit, if_pos rfl, List.append_nil]

theorem Toned.more (h : Toned clock first true l tones) (hpass : l.pass clock = (.ok on, next)) :
    ∃ later, Toned clock first on next later := by
  cases hquit : (l.feed.headD {}).quit with
  | false => exact ⟨_, h.frame hpass hquit⟩
  | true => exact ⟨_, h.quit hpass hquit⟩

theorem Toned.sounds (h : Toned clock first on l tones) (hfirst : first.events = #[]) :
    l.Sounds (tones.getLastD false) := by
  rw [← h.settings_eq hfirst]
  exact l.sounds_settings

/-- The calls for later settings follow those for the tones before. -/
theorem Toned.buzzerCalls_append (h : Toned clock first on l tones) (hfirst : first.events = #[])
    {later : Loop κ τ} {more : List Bool} (hlater : later.settings = tones ++ more) :
    later.buzzerCalls =
      l.buzzerCalls ++ ((Speaker.mk (tones.getLastD false)).enableAll more).2 := by
  rw [buzzerCalls, hlater, Speaker.enableAll_append, Speaker.enableAll_speaker, buzzerCalls,
    h.settings_eq hfirst]

/-- A frame makes a call only where the tone changes. -/
theorem Toned.pass_calls (h : Toned clock first true l tones) (hfirst : first.events = #[])
    (hpass : l.pass clock = (.ok on, next)) :
    ((l.feed.headD {}).quit = true → next.buzzerCalls = l.buzzerCalls) ∧
      ((l.feed.headD {}).quit = false →
        next.buzzerCalls =
          l.buzzerCalls ++ edgeCalls (tones.getLastD false) next.emulator.session.tone ∧
        looping next.buzzerCalls = next.emulator.session.tone) := by
  constructor
  · intro hquit
    have hlater := (h.quit hpass hquit).settings_eq hfirst
    rw [buzzerCalls, buzzerCalls, hlater, h.settings_eq hfirst]
  · intro hquit
    have hframe := h.frame hpass hquit
    have hsounds := (hframe.sounds hfirst).looping
    rw [List.getLastD_concat] at hsounds
    refine ⟨?_, hsounds⟩
    rw [h.buzzerCalls_append hfirst (hframe.settings_eq hfirst), Speaker.enableAll_cons,
      Speaker.enable_calls]
    exact congrArg (l.buzzerCalls ++ ·) (List.append_nil _)

/-- Frames in turn that end with the tone on begin the sound once. -/
theorem Toned.block_calls (h : Toned clock first on l tones) (hfirst : first.events = #[])
    {on' : Bool} {later : Loop κ τ} {block : List Bool}
    (hlater : Toned clock first on' later (tones ++ block)) (hoff : tones.getLastD false = false)
    (hne : block ≠ []) (hblock : ∀ tone ∈ block, tone = true) :
    later.buzzerCalls = l.buzzerCalls ++ [.play (-1)] := by
  rw [h.buzzerCalls_append hfirst (hlater.settings_eq hfirst), hoff,
    Speaker.enableAll_block hne hblock]

/-- A run that returns switches the buzzer off at its end. -/
theorem Toned.run (h : Toned clock first true l tones) (hfirst : first.events = #[])
    {passes : Nat} {final : Loop κ τ} (hrun : l.run clock passes = some (.ok (), final)) :
    final.Sounds false ∧
      ∃ (last : Loop κ τ) (later : List Bool), Toned clock first false last later ∧
        final.buzzerCalls = last.buzzerCalls ++ edgeCalls (later.getLastD false) false ∧
        final = { last with events := last.events.push (.buzzer false) } := by
  have keeps : ∀ l next : Loop κ τ, (∃ tones, Toned clock first true l tones) →
      l.pass clock = (.ok true, next) → ∃ tones, Toned clock first true next tones := by
    rintro l next ⟨tones, hl⟩ hpass
    exact hl.more hpass
  obtain ⟨l, last, ⟨tones, hl⟩, hlast, rfl⟩ := run_returns keeps ⟨tones, h⟩ hrun
  obtain ⟨later, hlater⟩ := hl.more hlast
  have hsettings : Loop.settings { last with events := last.events.push (.buzzer false) } =
      later ++ [false] := by
    rw [settings, Array.toList_push, List.filterMap_append, ← hlater.settings_eq hfirst]
    rfl
  refine ⟨?_, last, later, hlater, ?_, rfl⟩
  · have hsounds := sounds_settings { last with events := last.events.push (.buzzer false) }
    rw [hsettings, List.getLastD_concat] at hsounds
    exact hsounds
  · rw [hlater.buzzerCalls_append hfirst hsettings, Speaker.enableAll_cons, Speaker.enable_calls]
    exact congrArg (last.buzzerCalls ++ ·) (List.append_nil _)

end Loop

/-- The buzzer follows the tone. Let an emulator be built for any session, and its loop be run for
any user by any clock. In each state of the loop the calls that the speaker has made begin and stop
the sound turn by turn. A frame in which the user quits makes no call; any other makes one if its
session ends it with another tone than the frame before, and then the sound goes on exactly if the
tone is on. Frames in turn that end with the tone on, after one that does not, begin the sound once.
When the run returns, for whatever reason, the sound is off. On a launch that makes sound, all these
calls are made after the speaker was opened and before it is shut down. -/
theorem buzzer_follows_tone {κ τ : Type} [Time τ] {clock : Clock κ τ} {s : Session}
    {keyboard : Keyboard} {feed : List Batch} {watch : κ} {first : Loop κ τ}
    (hstart : Loop.start clock (Emulator.new s keyboard) feed watch = .ok first) :
    (∀ (on : Bool) (l : Loop κ τ) (tones : List Bool), Loop.Toned clock first on l tones →
      l.Sounds (tones.getLastD false)) ∧
    (∀ (on : Bool) (l next : Loop κ τ) (tones : List Bool),
      Loop.Toned clock first true l tones → l.pass clock = (.ok on, next) →
        ((l.feed.headD {}).quit = true → next.buzzerCalls = l.buzzerCalls) ∧
        ((l.feed.headD {}).quit = false →
          next.buzzerCalls =
            l.buzzerCalls ++ edgeCalls (tones.getLastD false) next.emulator.session.tone ∧
          looping next.buzzerCalls = next.emulator.session.tone)) ∧
    (∀ (on on' : Bool) (l later : Loop κ τ) (tones block : List Bool),
      Loop.Toned clock first on l tones → Loop.Toned clock first on' later (tones ++ block) →
        tones.getLastD false = false → block ≠ [] → (∀ tone ∈ block, tone = true) →
          later.buzzerCalls = l.buzzerCalls ++ [.play (-1)]) ∧
    ∀ (passes : Nat) (final : Loop κ τ), first.run clock passes = some (.ok (), final) →
      (final.Sounds false ∧
        ∃ (last : Loop κ τ) (tones : List Bool), Loop.Toned clock first false last tones ∧
          final.buzzerCalls = last.buzzerCalls ++ edgeCalls (tones.getLastD false) false ∧
          final = { last with events := last.events.push (.buzzer false) }) ∧
      ∀ launch : Launch, launch.audible = true →
        launch.mixerCalls final.events.toList =
          Speaker.openCalls ++ final.buzzerCalls ++ Speaker.closeCalls := by
  obtain ⟨-, hfirst⟩ := Loop.start_ok hstart
  refine ⟨?_, ?_, ?_, ?_⟩
  · intro on l tones h
    exact h.sounds hfirst
  · intro on l next tones h hpass
    exact h.pass_calls hfirst hpass
  · intro on on' l later tones block h hlater hoff hne hblock
    exact h.block_calls hfirst hlater hoff hne hblock
  · intro passes final hrun
    refine ⟨Loop.Toned.none.run hfirst hrun, ?_⟩
    intro launch haudible
    exact if_pos haudible

/-- A session of a program that sounds the tone for two steps, with one step in a frame. -/
def beeping : Session :=
  .opening { modernProcessor with platform := slowModern } [0x60, 0x02, 0xF0, 0x18, 0x12, 0x04]

/-- Five frames, and then the user quits. -/
def fiveFrames : List Batch := [{}, {}, {}, {}, {}, { quit := true }]

theorem buzzer_follows_tone_beeping :
    ∃ first final : Loop Nat ℚ,
      Loop.start halfSeconds (Emulator.new beeping (.ofKeymap ⟨Vector.ofFn fun k => k.val⟩))
          fiveFrames 0 = .ok first ∧
        first.run halfSeconds 6 = some (.ok (), final) ∧
        final.settings = [false, true, true, false, false, false] ∧
        final.buzzerCalls = [.play (-1), .stop] ∧ final.Sounds false := by
  obtain ⟨first, hstart, hend⟩ : ∃ first, Loop.start halfSeconds
      (Emulator.new beeping (.ofKeymap ⟨Vector.ofFn fun k => k.val⟩)) fiveFrames 0 = .ok first ∧
      (first.run halfSeconds 6).map (fun r => (r.1, r.2.settings)) =
        some (.ok (), [false, true, true, false, false, false]) := ⟨_, rfl, by decide +kernel⟩
  obtain ⟨⟨result, final⟩, hrun, hsettings⟩ := Option.map_eq_some_iff.mp hend
  simp only [Prod.mk.injEq] at hsettings
  obtain ⟨rfl, hsettings⟩ := hsettings
  obtain ⟨-, -, -, hreturn⟩ := buzzer_follows_tone hstart
  obtain ⟨⟨hsounds, -⟩, -⟩ := hreturn 6 final hrun
  refine ⟨first, final, hstart, hrun, hsettings, ?_, hsounds⟩
  rw [Loop.buzzerCalls, hsettings]
  rfl

end Chip8.Host
