/-
  What the reports of the loop come to. A report shows the figures since the last one and begins
  them anew, a frame adds what it has drawn and executed to the figures, and nothing else touches
  them. So in each state of the loop the figures that were shown, with those that are kept for the
  next report, are all the frames that were drawn and all the instructions that were executed
  (`Emulator.Balanced`). In exact time a report puts the next one off to the next whole second, and
  so no two reports are made in one second (`Loop.Timely`). A pass keeps both, and therefore each
  number of passes does (`reports_conserve`).
-/
import Chip8.Proofs.Discipline
import Chip8.Proofs.ExactTime
import Chip8.Proofs.HostFrames
namespace Chip8.Host

/-! ## What events show -/

namespace Event

variable {τ : Type}

/-- The frames that a report shows. -/
def shownFrames : Event τ → Int
  | .report frames _ => frames
  | _ => 0

/-- The instructions that a report shows. -/
def shownInstructions : Event τ → Int
  | .report _ instructions => instructions
  | _ => 0

def isReport : Event τ → Bool
  | .report .. => true
  | _ => false

def isDraw : Event τ → Bool
  | .draw _ => true
  | _ => false

end Event

namespace Emulator

variable {τ : Type}

/-- What the reports have shown since the emulator was built for a session, with the figures for the
next report, is what was drawn and executed since. -/
structure Balanced (s : Session) (e : Emulator τ) (told : List (Event τ)) : Prop where
  frames : (told.map Event.shownFrames).sum + e.frames = told.countP Event.isDraw
  instructions :
    (told.map Event.shownInstructions).sum + e.instructions = (e.session.steps : Int) - s.steps

variable {s : Session} {e : Emulator τ} {told : List (Event τ)}

/-- What happens next keeps the balance if it shows what the figures lose, and the figures gain what
it draws and executes. -/
theorem Balanced.append (h : e.Balanced s told) {next : Emulator τ} {more : List (Event τ)}
    (hframes : (more.map Event.shownFrames).sum + next.frames = e.frames + more.countP Event.isDraw)
    (hinstructions : (more.map Event.shownInstructions).sum + next.instructions + e.session.steps =
      e.instructions + next.session.steps) :
    next.Balanced s (told ++ more) := by
  have hshown := h.frames
  have hcounted := h.instructions
  refine ⟨?_, ?_⟩
  · rw [List.map_append, List.sum_append, List.countP_append]
    push_cast
    omega
  · rw [List.map_append, List.sum_append]
    omega

theorem Balanced.sleep (h : e.Balanced s told) (delay? : Option τ) :
    e.Balanced s (told ++ delay?.toList.map .sleep) := by
  cases delay? with
  | none => exact h.append (Int.add_comm _ _) (by simp)
  | some delay =>
    exact h.append (by simp [Event.shownFrames, Event.isDraw]) (by simp [Event.shownInstructions])

theorem Balanced.buzzer (h : e.Balanced s told) (on : Bool) :
    e.Balanced s (told ++ [.buzzer on]) :=
  h.append (by simp [Event.shownFrames, Event.isDraw]) (by simp [Event.shownInstructions])

theorem commanded_steps (e : Emulator τ) (b : Batch) :
    (e.commanded b).steps = e.session.steps := by
  unfold commanded Session.pause
  split
  · split <;> rfl
  · rfl

/-- A frame that is drawn has counted the steps of its session. -/
theorem played_steps {b : Batch} {executed : Nat}
    (hframe : (e.begun b).runFrame.result = .ok executed) :
    (e.played b).steps = e.session.steps + executed := by
  have hsteps := Session.runFrame_steps hframe
  rw [Session.runFrame_session hframe] at hsteps
  exact hsteps.trans (congrArg (· + executed) (e.commanded_steps b))

theorem Balanced.runFrame (h : e.Balanced s told) {b : Batch} {on : Bool}
    (hok : (e.runFrame b).result = .ok on) :
    (e.runFrame b).emulator.Balanced s (told ++ (e.runFrame b).events) := by
  have hcourse := e.runFrame_course b
  generalize e.runFrame b = turn at hok hcourse ⊢
  cases hcourse with
  | quit => exact h.append (Int.add_comm _ _) (by simp)
  | overset | refused => cases hok
  | @drawn _ executed hframe =>
    have hsteps : (e.played b).endFrame.clearKeys.steps = e.session.steps + executed :=
      played_steps hframe
    refine h.append (by simp [Event.shownFrames, Event.isDraw, List.countP_cons]) ?_
    simp only [hsteps, List.map_cons, List.map_nil, List.sum_cons, List.sum_nil,
      Event.shownInstructions]
    omega

/-- A frame leaves the time of the next report. -/
theorem runFrame_nextReport (e : Emulator τ) (b : Batch) :
    (e.runFrame b).emulator.nextReport = e.nextReport := by
  have hcourse := e.runFrame_course b
  generalize e.runFrame b = turn at hcourse ⊢
  cases hcourse <;> rfl

variable [Time τ]

theorem reportAt_early {now : τ} (h : Time.reached e.nextReport now = false) :
    e.reportAt now = .ok (e, []) := by
  rw [reportAt, h, if_neg Bool.false_ne_true]

theorem reportAt_due {next : Emulator τ} {reports : List (Event τ)} {now : τ}
    (hdue : Time.reached e.nextReport now = true) (h : e.reportAt now = .ok (next, reports)) :
    ∃ seconds, Time.seconds now = .ok seconds ∧
      next = { e with
        frames := 0
        instructions := 0
        nextReport := Time.ofSeconds seconds + Time.ofSeconds 1 } ∧
      reports = [.report e.frames e.instructions] := by
  rw [reportAt, hdue, if_pos rfl] at h
  cases hseconds : Time.seconds now with
  | error failure =>
    rw [hseconds] at h
    cases h
  | ok seconds =>
    rw [hseconds] at h
    cases h
    exact ⟨seconds, rfl, rfl, rfl⟩

theorem Balanced.reportAt (h : e.Balanced s told) {next : Emulator τ}
    {reports : List (Event τ)} {now : τ} (hreport : e.reportAt now = .ok (next, reports)) :
    next.Balanced s (told ++ reports) := by
  cases hdue : Time.reached e.nextReport now with
  | false =>
    rw [reportAt_early hdue] at hreport
    cases hreport
    rw [List.append_nil]
    exact h
  | true =>
    obtain ⟨seconds, -, rfl, rfl⟩ := reportAt_due hdue hreport
    exact h.append (by simp [Event.shownFrames, Event.isDraw])
      (by simp [Event.shownInstructions])

end Emulator

namespace Loop

variable {κ τ : Type} [Time τ] {clock : Clock κ τ}

/-! ## A pass -/

/-- When a pass reports: at the time that it reads, if a report is due then. -/
def reportTime? (clock : Clock κ τ) (l : Loop κ τ) : Option τ :=
  match clock.read l.clock with
  | .ok (now, _) => if Time.reached l.emulator.nextReport now then some now else none
  | .error _ => none

/-- The wait after a frame does at most one thing, which is to sleep. -/
theorem wait_ok {l next : Loop κ τ} {now : τ} {on : Bool}
    (h : l.wait clock now = (.ok on, next)) :
    on = true ∧ next.emulator = l.emulator ∧
      ∃ delay? : Option τ, next.events.toList = l.events.toList ++ delay?.toList.map .sleep := by
  unfold wait at h
  split at h
  · cases h
  · dsimp only at h
    split at h
    · split at h
      · cases h
      · cases h
        exact ⟨rfl, rfl, some _, Array.toList_push⟩
    · cases h
      exact ⟨rfl, rfl, none, (List.append_nil _).symm⟩

omit [Time τ] in
theorem start_ok {e : Emulator τ} {feed : List Batch} {watch : κ} {first : Loop κ τ}
    (h : Loop.start clock e feed watch = .ok first) :
    first.emulator = e ∧ first.events = #[] := by
  unfold Loop.start at h
  cases hread : clock.read watch with
  | error failure =>
    rw [hread] at h
    cases h
  | ok reading =>
    rw [hread] at h
    cases h
    exact ⟨rfl, rfl⟩

/-- What a pass does that is not stopped: a report if it is due, a frame, and perhaps a sleep. -/
theorem pass_ok {l next : Loop κ τ} {on : Bool} (h : l.pass clock = (.ok on, next)) :
    ∃ (now : τ) (watch : κ) (e : Emulator τ) (reports : List (Event τ)) (delay? : Option τ),
      clock.read l.clock = .ok (now, watch) ∧ l.emulator.reportAt now = .ok (e, reports) ∧
      (e.runFrame (l.feed.headD {})).result = .ok on ∧
      next.emulator = (e.runFrame (l.feed.headD {})).emulator ∧
      next.events.toList = l.events.toList ++ reports ++ (e.runFrame (l.feed.headD {})).events ++
        delay?.toList.map .sleep := by
  unfold pass at h
  split at h
  · cases h
  rename_i now watch hread
  dsimp only at h
  split at h
  · cases h
  rename_i e reports hreport
  have happended : ((l.events ++ reports) ++ (e.runFrame (l.feed.headD {})).events).toList =
      l.events.toList ++ reports ++ (e.runFrame (l.feed.headD {})).events := by
    rw [Array.toList_appendList, Array.toList_appendList]
  cases hresult : (e.runFrame (l.feed.headD {})).result with
  | error failure =>
    rw [hresult] at h
    cases h
  | ok goes =>
    rw [hresult] at h
    cases goes with
    | false =>
      cases h
      exact ⟨now, watch, e, reports, none, hread, hreport, hresult, rfl,
        happended.trans (List.append_nil _).symm⟩
    | true =>
      obtain ⟨rfl, hemulator, delay?, hevents⟩ := wait_ok h
      refine ⟨now, watch, e, reports, delay?, hread, hreport, hresult, hemulator, ?_⟩
      rw [hevents, happended]

/-- All that was shown, drawn and done since the emulator was built. -/
def told (l : Loop κ τ) : List (Event τ) := Emulator.opening ++ l.events.toList

theorem pass_balanced {s : Session} {l next : Loop κ τ} {on : Bool}
    (h : l.emulator.Balanced s l.told) (hpass : l.pass clock = (.ok on, next)) :
    next.emulator.Balanced s next.told := by
  obtain ⟨now, watch, e, reports, delay?, -, hreport, hresult, hemulator, hevents⟩ := pass_ok hpass
  have hbalanced := ((h.reportAt hreport).runFrame hresult).sleep delay?
  unfold told at hbalanced ⊢
  rw [hemulator, hevents]
  simpa only [List.append_assoc] using hbalanced

/-- A pass makes a report exactly if it has a time for it. -/
theorem pass_reports {l next : Loop κ τ} {on : Bool} (hpass : l.pass clock = (.ok on, next)) :
    next.events.toList.countP Event.isReport =
      l.events.toList.countP Event.isReport + (l.reportTime? clock).toList.length := by
  obtain ⟨now, watch, e, reports, delay?, hread, hreport, hresult, -, hevents⟩ := pass_ok hpass
  have hreports : reports.countP Event.isReport = (l.reportTime? clock).toList.length := by
    unfold reportTime?
    rw [hread]
    cases hdue : Time.reached l.emulator.nextReport now with
    | false =>
      rw [Emulator.reportAt_early hdue] at hreport
      cases hreport
      simp [hdue]
    | true =>
      obtain ⟨seconds, -, -, rfl⟩ := Emulator.reportAt_due hdue hreport
      simp [hdue, Event.isReport]
  have hframe : (e.runFrame (l.feed.headD {})).events.countP Event.isReport = 0 := by
    have hcourse := e.runFrame_course (l.feed.headD {})
    generalize e.runFrame (l.feed.headD {}) = turn at hcourse ⊢
    cases hcourse <;> rfl
  have hsleep : (delay?.toList.map Event.sleep : List (Event τ)).countP Event.isReport = 0 := by
    cases delay? <;> rfl
  rw [hevents, List.countP_append, List.countP_append, List.countP_append, hreports, hframe, hsleep]
  rfl

/-! ## Passes in turn -/

/-- What each pass keeps holds before the last pass of a run that returns. That pass does not go on,
and then the buzzer is silenced. -/
theorem run_returns {P : Loop κ τ → Prop}
    (keeps : ∀ l next : Loop κ τ, P l → l.pass clock = (.ok true, next) → P next) {l : Loop κ τ}
    (h : P l) {passes : Nat} {final : Loop κ τ}
    (hrun : l.run clock passes = some (.ok (), final)) :
    ∃ before last : Loop κ τ, P before ∧ before.pass clock = (.ok false, last) ∧
      final = { last with events := last.events.push (.buzzer false) } := by
  induction passes generalizing l with
  | zero => cases hrun
  | succ passes ih =>
    unfold Loop.run at hrun
    split at hrun
    · cases hrun
    · rename_i hpass
      exact ih (keeps _ _ h hpass) hrun
    · rename_i hpass
      cases hrun
      exact ⟨l, _, h, hpass, rfl⟩

/-- Passes that were not stopped: whether the last one goes on, what it leaves, and the times of the
reports so far. -/
inductive Passes (clock : Clock κ τ) (first : Loop κ τ) : Bool → Loop κ τ → List τ → Prop where
  | none : Passes clock first true first []
  | more {l next : Loop κ τ} {times : List τ} {on : Bool} (before : Passes clock first true l times)
    (hpass : l.pass clock = (.ok on, next)) :
    Passes clock first on next (times ++ (l.reportTime? clock).toList)

section Passes

variable {first l : Loop κ τ} {on : Bool} {times : List τ}

theorem Passes.balanced {s : Session} (h : Passes clock first on l times)
    (hfirst : first.emulator.Balanced s first.told) : l.emulator.Balanced s l.told := by
  induction h with
  | none => exact hfirst
  | more _ hpass ih => exact pass_balanced ih hpass

theorem Passes.countP_isReport (h : Passes clock first on l times)
    (hfirst : first.events = #[]) : l.events.toList.countP Event.isReport = times.length := by
  induction h with
  | none =>
    rw [hfirst]
    rfl
  | more _ hpass ih => rw [pass_reports hpass, ih, List.length_append]

/-- A run that returns has made its passes, of which the last does not go on, and has then silenced
the buzzer. -/
theorem Passes.run (h : Passes clock first true l times) {passes : Nat} {final : Loop κ τ}
    (hrun : l.run clock passes = some (.ok (), final)) :
    ∃ (last : Loop κ τ) (later : List τ), Passes clock first false last later ∧
      final = { last with events := last.events.push (.buzzer false) } := by
  have keeps : ∀ l next : Loop κ τ, (∃ times, Passes clock first true l times) →
      l.pass clock = (.ok true, next) → ∃ times, Passes clock first true next times := by
    rintro l next ⟨times, hl⟩ hpass
    exact ⟨_, hl.more hpass⟩
  obtain ⟨l, last, ⟨times, hpasses⟩, hlast, hfinal⟩ := run_returns keeps ⟨times, h⟩ hrun
  exact ⟨last, _, hpasses.more hlast, hfinal⟩

end Passes

end Loop

/-! ## Reports in exact time -/

namespace Loop

variable {κ : Type} {clock : Clock κ ℚ}

/-- The whole seconds of the reports rise, and the next report is due after the last. -/
structure Timely (l : Loop κ ℚ) (times : List ℚ) : Prop where
  rising : times.Pairwise fun t u => wholeSeconds t < wholeSeconds u
  due : ∀ t ∈ times, ((wholeSeconds t + 1 : Int) : ℚ) ≤ l.emulator.nextReport

theorem pass_timely {l next : Loop κ ℚ} {times : List ℚ} {on : Bool} (h : l.Timely times)
    (hpass : l.pass clock = (.ok on, next)) :
    next.Timely (times ++ (l.reportTime? clock).toList) := by
  obtain ⟨now, watch, e, reports, delay?, hread, hreport, -, hemulator, -⟩ := pass_ok hpass
  have hnext : next.emulator.nextReport = e.nextReport := by
    rw [hemulator, e.runFrame_nextReport]
  unfold reportTime?
  rw [hread]
  cases hdue : Time.reached l.emulator.nextReport now with
  | false =>
    rw [Emulator.reportAt_early hdue] at hreport
    cases hreport
    simp only [hdue, Bool.false_eq_true, if_false, Option.toList_none, List.append_nil]
    refine ⟨h.rising, fun t ht => ?_⟩
    rw [hnext]
    exact h.due t ht
  | true =>
    obtain ⟨seconds, hseconds, rfl, -⟩ := Emulator.reportAt_due hdue hreport
    cases hseconds
    have hreached : l.emulator.nextReport ≤ now := of_decide_eq_true hdue
    -- the report was due a whole second after each one before
    have hlater : ∀ t ∈ times, wholeSeconds t < wholeSeconds now := fun t ht =>
      le_wholeSeconds ((h.due t ht).trans hreached)
    have hput : next.emulator.nextReport = ((wholeSeconds now + 1 : Int) : ℚ) :=
      hnext.trans (Int.cast_add _ _).symm
    simp only [hdue, if_true, Option.toList_some]
    refine ⟨List.pairwise_append.mpr ⟨h.rising, List.pairwise_singleton _ _, ?_⟩, ?_⟩
    · intro t ht u hu
      rw [List.mem_singleton.mp hu]
      exact hlater t ht
    · intro t ht
      rw [hput, Int.cast_le]
      rcases List.mem_append.mp ht with ht | ht
      · have hlt := hlater t ht
        omega
      · rw [List.mem_singleton.mp ht]

theorem Passes.timely {first l : Loop κ ℚ} {on : Bool} {times : List ℚ}
    (h : Passes clock first on l times) : l.Timely times := by
  induction h with
  | none => exact ⟨List.Pairwise.nil, nofun⟩
  | more _ hpass ih => exact pass_timely ih hpass

end Loop

/-- What a new emulator has shown is in balance with what its session does from then on. -/
theorem Emulator.new_balanced {τ : Type} [Time τ] (s : Session) (k : Keyboard) :
    (Emulator.new s k : Emulator τ).Balanced s Emulator.opening :=
  ⟨rfl, (Int.sub_self _).symm⟩

/-- The reports lose nothing and tell nothing twice. Let an emulator be built for any session, and
its loop be run for any user by a clock that shows exact times, whatever they are. After each number
of passes, and when the run returns, the instructions that all reports have shown, with those that
are counted for the next report, are those that the session has executed since the emulator was
built, and in the same way the frames are those that were drawn. Each time at which a pass reports
has more whole seconds than the one before, and each has its one report, so that no second has
two. -/
theorem reports_conserve {κ : Type} {clock : Clock κ ℚ} {s : Session} {keyboard : Keyboard}
    {feed : List Batch} {watch : κ} {first : Loop κ ℚ}
    (hstart : Loop.start clock (Emulator.new s keyboard) feed watch = .ok first) :
    (∀ (on : Bool) (l : Loop κ ℚ) (times : List ℚ), Loop.Passes clock first on l times →
      l.emulator.Balanced s l.told ∧ l.events.toList.countP Event.isReport = times.length ∧
        times.Pairwise fun t u => wholeSeconds t < wholeSeconds u) ∧
    ∀ (passes : Nat) (final : Loop κ ℚ), first.run clock passes = some (.ok (), final) →
      final.emulator.Balanced s final.told ∧
        ∃ (last : Loop κ ℚ) (times : List ℚ), Loop.Passes clock first false last times ∧
          final = { last with events := last.events.push (.buzzer false) } := by
  obtain ⟨hemulator, hevents⟩ := Loop.start_ok hstart
  have hfirst : first.emulator.Balanced s first.told := by
    rw [Loop.told, hemulator, hevents]
    exact Emulator.new_balanced s keyboard
  refine ⟨fun on l times h => ⟨h.balanced hfirst, h.countP_isReport hevents, h.timely.rising⟩, ?_⟩
  intro passes final hrun
  obtain ⟨last, times, hpasses, rfl⟩ := Loop.Passes.none.run hrun
  refine ⟨?_, last, times, hpasses, rfl⟩
  have hbalanced := (hpasses.balanced hfirst).buzzer false
  rw [Loop.told, Array.toList_push, ← List.append_assoc]
  exact hbalanced

/-- A clock that shows half a second more each time. -/
def halfSeconds : Clock Nat ℚ := .ofReadings fun n => n / 2

/-- A session of two steps, the second of which is a fault, with one step in a frame. -/
def twoFrames : Session := .opening { modernProcessor with platform := slowModern } drawingProgram

theorem reports_conserve_halfSeconds :
    ∃ first final : Loop Nat ℚ,
      Loop.start halfSeconds (Emulator.new twoFrames (.ofKeymap ⟨Vector.ofFn fun k => k.val⟩)) []
          0 = .ok first ∧
        first.run halfSeconds 2 = some (.ok (), final) ∧
        (final.told.map Event.shownInstructions).sum + final.emulator.instructions = 1 ∧
        (final.told.map Event.shownFrames).sum + final.emulator.frames = 2 := by
  obtain ⟨first, hstart, hend⟩ : ∃ first, Loop.start halfSeconds
      (Emulator.new twoFrames (.ofKeymap ⟨Vector.ofFn fun k => k.val⟩)) [] 0 = .ok first ∧
      (first.run halfSeconds 2).map (fun r => (r.1, r.2.emulator.session.steps,
        r.2.told.countP Event.isDraw)) = some (.ok (), 1, 2) := ⟨_, rfl, by decide +kernel⟩
  obtain ⟨⟨result, final⟩, hrun, hfigures⟩ := Option.map_eq_some_iff.mp hend
  simp only [Prod.mk.injEq] at hfigures
  obtain ⟨rfl, hsteps, hdraws⟩ := hfigures
  obtain ⟨-, hreturn⟩ := reports_conserve hstart
  obtain ⟨⟨hframes, hinstructions⟩, -⟩ := hreturn 2 final hrun
  refine ⟨first, final, hstart, hrun, hinstructions.trans ?_, hframes.trans ?_⟩
  · rw [hsteps]
    rfl
  · rw [hdraws]
    rfl

end Chip8.Host
