/-
  The pace of the loop in exact time. A frame is due a frame's length after the one before was, or
  at once if the loop had fallen behind by then. On a clock that never goes back, and whose sleeps
  are never too short, no pass begins before its frame is due (`Loop.OnPace`), and each pass puts
  that off by a frame's length at least (`Loop.OnPace.pass`). So passes never come too fast, time
  that was lost is not made up for, and no sleep is longer than a frame (`frames_keep_pace`).
-/
import Chip8.Proofs.Reports
import Mathlib.Tactic.Linarith
namespace Chip8.Host

/-! ## Clocks -/

namespace Clock

variable {κ : Type}

/-- The next reading shows a time or a later one. -/
def NotBefore (clock : Clock κ ℚ) (time : ℚ) (watch : κ) : Prop :=
  ∀ now rest, clock.read watch = .ok (now, rest) → time ≤ now

/-- The clock never goes back, and no sleep is too short. -/
structure Forward (clock : Clock κ ℚ) : Prop where
  read : ∀ {watch rest : κ} {now : ℚ}, clock.read watch = .ok (now, rest) →
    clock.NotBefore now rest
  sleep : ∀ {watch rest rested : κ} {now delay : ℚ}, clock.read watch = .ok (now, rest) →
    0 < delay → clock.sleep delay rest = .ok rested → clock.NotBefore (now + delay) rested

/-- A clock that moves only when it is read and when it is slept on: the reading of each number has
its cost. Its state is the time and the number of readings. -/
def ofCosts (cost : Nat → ℚ) : Clock (ℚ × Nat) ℚ where
  read | (now, n) => .ok (now, now + cost n, n + 1)
  sleep | delay, (now, n) => .ok (now + delay, n)

theorem forward_ofCosts {cost : Nat → ℚ} (h : ∀ n, 0 ≤ cost n) : (ofCosts cost).Forward where
  read := by
    rintro ⟨time, n⟩ rest now hread later last hlater
    cases hread
    cases hlater
    have hcost := h n
    linarith
  sleep := by
    rintro ⟨time, n⟩ rest rested now delay hread - hsleep later last hlater
    cases hread
    cases hsleep
    cases hlater
    have hcost := h n
    linarith

end Clock

/-! ## Passes -/

section Passes

variable {κ τ : Type} [Time τ] {clock : Clock κ τ}

/-- The length of a sleep. -/
def Event.delay? : Event τ → Option τ
  | .sleep delay => some delay
  | _ => none

namespace Emulator

omit [Time τ] in
theorem runFrame_sleeps (e : Emulator τ) (b : Batch) :
    (e.runFrame b).events.filterMap Event.delay? = [] := by
  have hcourse := e.runFrame_course b
  generalize e.runFrame b = turn at hcourse ⊢
  cases hcourse <;> rfl

theorem reportAt_sleeps {e next : Emulator τ} {reports : List (Event τ)} {now : τ}
    (h : e.reportAt now = .ok (next, reports)) : reports.filterMap Event.delay? = [] := by
  cases hdue : Time.reached e.nextReport now with
  | false =>
    rw [reportAt_early hdue] at h
    cases h
    rfl
  | true =>
    obtain ⟨seconds, -, -, rfl⟩ := reportAt_due hdue h
    rfl

end Emulator

namespace Loop

/-- The sleeps so far. -/
def sleeps (l : Loop κ τ) : List τ := l.events.toList.filterMap Event.delay?

omit [Time τ] in
theorem sleeps_of_push {l next : Loop κ τ} {event : Event τ}
    (h : next.events = l.events.push event) :
    next.sleeps = l.sleeps ++ event.delay?.toList := by
  rw [sleeps, h, Array.toList_push, List.filterMap_append]
  cases event <;> rfl

/-- What the wait after a frame can come to. -/
inductive WaitCourse (clock : Clock κ τ) (now : τ) (l : Loop κ τ) :
    Except Failure Bool × Loop κ τ → Prop where
  /-- The clock cannot be read, or cannot sleep for so long. -/
  | stopped {failure : Failure} {next : Loop κ τ} (hsleeps : next.sleeps = l.sleeps) :
    WaitCourse clock now l (.error failure, next)
  /-- The next frame is due. -/
  | due {later : τ} {rest : κ} (hread : clock.read l.clock = .ok (later, rest))
    (hdue : Time.before (Time.ofSeconds 0) (nextDeadline l.deadline now - later) = false) :
    WaitCourse clock now l
      (.ok true, { l with deadline := nextDeadline l.deadline now, clock := rest })
  /-- There is time to sleep. -/
  | early {later : τ} {rest rested : κ} (hread : clock.read l.clock = .ok (later, rest))
    (hearly : Time.before (Time.ofSeconds 0) (nextDeadline l.deadline now - later) = true)
    (hsleep : clock.sleep (nextDeadline l.deadline now - later) rest = .ok rested) :
    WaitCourse clock now l
      (.ok true, { l with
        deadline := nextDeadline l.deadline now
        clock := rested
        events := l.events.push (.sleep (nextDeadline l.deadline now - later)) })

theorem wait_course (clock : Clock κ τ) (l : Loop κ τ) (now : τ) :
    WaitCourse clock now l (l.wait clock now) := by
  unfold wait
  split
  · exact .stopped rfl
  rename_i later rest hread
  dsimp only
  split
  · rename_i hearly
    split
    · exact .stopped rfl
    · rename_i hsleep
      exact .early hread hearly hsleep
  · rename_i hdue
    exact .due hread (Bool.eq_false_iff.mpr hdue)

/-- What a pass can come to. -/
inductive PassCourse (clock : Clock κ τ) (l : Loop κ τ) :
    Except Failure Bool × Loop κ τ → Prop where
  /-- It ends before there is time to wait. -/
  | stopped {result : Except Failure Bool} {next : Loop κ τ} (hresult : result ≠ .ok true)
    (hsleeps : next.sleeps = l.sleeps) : PassCourse clock l (result, next)
  /-- It waits for the next frame. -/
  | waits {now : τ} {drawn : Loop κ τ} (hread : clock.read l.clock = .ok (now, drawn.clock))
    (hdeadline : drawn.deadline = l.deadline) (hsleeps : drawn.sleeps = l.sleeps) :
    PassCourse clock l (drawn.wait clock now)

theorem pass_course (clock : Clock κ τ) (l : Loop κ τ) : PassCourse clock l (l.pass clock) := by
  unfold pass
  split
  · exact .stopped nofun rfl
  rename_i now watch hread
  dsimp only
  split
  · exact .stopped nofun rfl
  rename_i e reports hreport
  have hsleeps :
      (l.events ++ reports ++ (e.runFrame (l.feed.headD {})).events).toList.filterMap Event.delay? =
        l.sleeps := by
    rw [Array.toList_appendList, Array.toList_appendList, List.filterMap_append,
      List.filterMap_append, Emulator.reportAt_sleeps hreport, Emulator.runFrame_sleeps,
      List.append_nil, List.append_nil]
    rfl
  split
  · exact .stopped nofun hsleeps
  · exact .stopped nofun hsleeps
  · exact .waits hread rfl hsleeps

/-! ## Passes by their numbers -/

/-- The loop before the pass of a number, if the passes before it go on. -/
def before? (clock : Clock κ τ) : Nat → Loop κ τ → Option (Loop κ τ)
  | 0, l => some l
  | k + 1, l =>
    match l.pass clock with
    | (.ok true, next) => next.before? clock k
    | _ => none

/-- When the pass of a number begins: the time that it reads first. -/
def beginning? (clock : Clock κ τ) (l : Loop κ τ) (k : Nat) : Option τ :=
  (l.before? clock k).bind fun l =>
    match clock.read l.clock with
    | .ok (now, _) => some now
    | .error _ => none

theorem before?_succ_eq_some {l last : Loop κ τ} {k : Nat}
    (h : l.before? clock (k + 1) = some last) :
    ∃ next, l.pass clock = (.ok true, next) ∧ next.before? clock k = some last := by
  unfold before? at h
  split at h
  · rename_i next hpass
    exact ⟨next, hpass, h⟩
  · cases h

theorem before?_add_eq_some {l last : Loop κ τ} {j k : Nat}
    (h : l.before? clock (j + k) = some last) :
    ∃ mid, l.before? clock j = some mid ∧ mid.before? clock k = some last := by
  induction j generalizing l with
  | zero =>
    rw [Nat.zero_add] at h
    exact ⟨l, rfl, h⟩
  | succ j ih =>
    rw [Nat.succ_add] at h
    obtain ⟨next, hpass, hlast⟩ := before?_succ_eq_some h
    obtain ⟨mid, hmid, hrest⟩ := ih hlast
    refine ⟨mid, ?_, hrest⟩
    rw [before?, hpass]
    exact hmid

theorem beginning?_eq_some_iff {l : Loop κ τ} {k : Nat} {now : τ} :
    l.beginning? clock k = some now ↔
      ∃ last rest, l.before? clock k = some last ∧ clock.read last.clock = .ok (now, rest) := by
  unfold beginning?
  rw [Option.bind_eq_some_iff]
  refine exists_congr fun last => ?_
  cases hread : clock.read last.clock with
  | error failure => simp
  | ok reading => simp [Prod.ext_iff]

/-- A run that ends, in whatever way, has slept as its last pass has left it. -/
theorem run_eq_some {l final : Loop κ τ} {passes : Nat} {result : Except Failure Unit}
    (h : l.run clock passes = some (result, final)) :
    ∃ k last, l.before? clock k = some last ∧ final.sleeps = (last.pass clock).2.sleeps := by
  induction passes generalizing l with
  | zero => cases h
  | succ passes ih =>
    unfold run at h
    split at h
    · rename_i failure next hpass
      cases h
      exact ⟨0, l, rfl, by rw [hpass]⟩
    · rename_i next hpass
      obtain ⟨k, last, hlast, hsleeps⟩ := ih h
      refine ⟨k + 1, last, ?_, hsleeps⟩
      rw [before?, hpass]
      exact hlast
    · rename_i next hpass
      cases h
      refine ⟨0, l, rfl, ?_⟩
      rw [hpass]
      exact (sleeps_of_push rfl).trans (List.append_nil _)

end Loop

end Passes

/-! ## The pace in exact time -/

/-- The later of the time a frame's length on and the time of the reading. -/
theorem nextDeadline_eq_max (deadline now : ℚ) :
    nextDeadline deadline now = max (deadline + Time.frame) now := by
  unfold nextDeadline Time.later
  by_cases h : deadline + Time.frame < now
  · rw [if_pos (show Time.before _ _ = true from decide_eq_true h), max_eq_right h.le]
  · rw [if_neg (show ¬ Time.before _ _ = true from fun hb => h (of_decide_eq_true hb)),
      max_eq_left (not_lt.mp h)]

namespace Loop

variable {κ : Type} {clock : Clock κ ℚ}

/-- The next pass begins when its frame is due, or later, and no sleep so far was longer than a
frame. -/
structure OnPace (clock : Clock κ ℚ) (l : Loop κ ℚ) : Prop where
  due : clock.NotBefore l.deadline l.clock
  sleeps : ∀ delay ∈ l.sleeps, 0 < delay ∧ delay ≤ Time.frame

/-- A pass that began when its frame was due, or later, sleeps for a frame's length at most. -/
theorem wait_sleeps (hclock : clock.Forward) {l : Loop κ ℚ} {watch : κ} {now : ℚ}
    (hread : clock.read watch = .ok (now, l.clock)) (hdue : l.deadline ≤ now)
    (hsleeps : ∀ delay ∈ l.sleeps, 0 < delay ∧ delay ≤ Time.frame) :
    ∀ delay ∈ (l.wait clock now).2.sleeps, 0 < delay ∧ delay ≤ Time.frame := by
  have hcourse := wait_course clock l now
  generalize l.wait clock now = outcome at hcourse ⊢
  cases hcourse with
  | stopped hkept =>
    rw [hkept]
    exact hsleeps
  | due => exact hsleeps
  | @early later rest rested hlater hearly =>
    have hforward : now ≤ later := hclock.read hread later rest hlater
    have hpos : 0 < nextDeadline l.deadline now - later := of_decide_eq_true hearly
    have hframe : (0 : ℚ) ≤ Time.frame := by norm_num [Time.frame]
    have hnext : nextDeadline l.deadline now ≤ now + Time.frame := by
      rw [nextDeadline_eq_max]
      exact max_le (by linarith) (by linarith)
    intro delay hdelay
    rw [sleeps_of_push rfl] at hdelay
    rcases List.mem_append.mp hdelay with hmem | hmem
    · exact hsleeps delay hmem
    · rw [List.mem_singleton.mp hmem]
      exact ⟨hpos, by linarith⟩

/-- A sleep lasts until the next frame is due, and without one that time has come already. -/
theorem wait_due (hclock : clock.Forward) {l next : Loop κ ℚ} {now : ℚ}
    (hnext : l.wait clock now = (.ok true, next)) :
    next.deadline = max (l.deadline + Time.frame) now ∧
      clock.NotBefore next.deadline next.clock := by
  rw [← nextDeadline_eq_max]
  have hcourse := wait_course clock l now
  rw [hnext] at hcourse
  cases hcourse with
  | due hlater hover =>
    refine ⟨rfl, fun time last hlast => ?_⟩
    have hforward := hclock.read hlater time last hlast
    have hle := not_lt.mp (of_decide_eq_false hover)
    exact (sub_nonpos.mp hle).trans hforward
  | early hlater hearly hsleep =>
    refine ⟨rfl, fun time last hlast => ?_⟩
    have hslept := hclock.sleep hlater (of_decide_eq_true hearly) hsleep time last hlast
    rwa [add_sub_cancel] at hslept

theorem OnPace.pass_sleeps (hclock : clock.Forward) {l : Loop κ ℚ} (h : l.OnPace clock) :
    ∀ delay ∈ (l.pass clock).2.sleeps, 0 < delay ∧ delay ≤ Time.frame := by
  have hcourse := pass_course clock l
  generalize l.pass clock = outcome at hcourse ⊢
  cases hcourse with
  | stopped _ hsleeps =>
    rw [hsleeps]
    exact h.sleeps
  | @waits now drawn hread hdeadline hsleeps =>
    have hdue := h.due now _ hread
    rw [← hdeadline] at hdue
    exact wait_sleeps hclock hread hdue (hsleeps ▸ h.sleeps)

/-- A pass that goes on puts the deadline off by a frame's length, or to its own beginning. -/
theorem OnPace.pass (hclock : clock.Forward) {l next : Loop κ ℚ} (h : l.OnPace clock)
    (hpass : l.pass clock = (.ok true, next)) :
    next.OnPace clock ∧ ∃ now rest, clock.read l.clock = .ok (now, rest) ∧
      next.deadline = max (l.deadline + Time.frame) now := by
  have hsleeps := h.pass_sleeps hclock
  have hcourse := pass_course clock l
  rw [hpass] at hsleeps
  generalize hout : l.pass clock = outcome at hcourse
  cases hcourse with
  | stopped hresult =>
    rw [hpass] at hout
    cases hout
    exact absurd rfl hresult
  | @waits now drawn hread hdeadline hkept =>
    have hdue := h.due now _ hread
    rw [← hdeadline] at hdue
    obtain ⟨hnext, hlater⟩ := wait_due hclock (hout.symm.trans hpass)
    exact ⟨⟨hlater, hsleeps⟩, now, _, hread, hdeadline ▸ hnext⟩

/-- Passes in turn put the deadline off by a frame's length each, at least. -/
theorem OnPace.before? (hclock : clock.Forward) {l last : Loop κ ℚ} (h : l.OnPace clock) {k : Nat}
    (hlast : l.before? clock k = some last) :
    last.OnPace clock ∧ l.deadline + k * Time.frame ≤ last.deadline := by
  induction k generalizing l with
  | zero =>
    cases hlast
    refine ⟨h, ?_⟩
    rw [Nat.cast_zero, zero_mul, add_zero]
  | succ k ih =>
    obtain ⟨next, hpass, hlast⟩ := before?_succ_eq_some hlast
    obtain ⟨hnext, now, rest, -, hdeadline⟩ := h.pass hclock hpass
    obtain ⟨honPace, hle⟩ := ih hnext hlast
    have hput := le_max_left (l.deadline + Time.frame) now
    rw [← hdeadline] at hput
    refine ⟨honPace, ?_⟩
    push_cast
    linarith

/-- Once a pass has begun, the passes after the next one come a frame's length later each, at
least. -/
theorem OnPace.spaced (hclock : clock.Forward) {l last : Loop κ ℚ} (h : l.OnPace clock) {k : Nat}
    (hlast : l.before? clock (k + 1) = some last) {now : ℚ} {rest : κ}
    (hread : clock.read l.clock = .ok (now, rest)) :
    last.OnPace clock ∧ now + k * Time.frame ≤ last.deadline := by
  obtain ⟨next, hpass, hlast⟩ := before?_succ_eq_some hlast
  obtain ⟨hnext, now', rest', hread', hdeadline⟩ := h.pass hclock hpass
  obtain ⟨rfl, rfl⟩ : now = now' ∧ rest = rest' := by
    rw [hread] at hread'
    cases hread'
    exact ⟨rfl, rfl⟩
  obtain ⟨honPace, hle⟩ := hnext.before? hclock hlast
  have hput := le_max_right (l.deadline + Time.frame) now
  rw [← hdeadline] at hput
  exact ⟨honPace, by linarith⟩

/-- Before its first pass the loop is on its pace. -/
theorem start_onPace (hclock : clock.Forward) {e : Emulator ℚ} {feed : List Batch} {watch : κ}
    {first : Loop κ ℚ} (hstart : Loop.start clock e feed watch = .ok first) :
    clock.read watch = .ok (first.deadline, first.clock) ∧ first.OnPace clock := by
  unfold Loop.start at hstart
  cases hread : clock.read watch with
  | error failure =>
    rw [hread] at hstart
    cases hstart
  | ok opening =>
    rw [hread] at hstart
    cases hstart
    exact ⟨rfl, hclock.read hread, nofun⟩

end Loop

/-- Frames keep their pace. Let the loop of any emulator be run for any user by a clock that shows
exact times, never goes back, and never sleeps for less than it is told to. The first reading is
taken before the loop. The pass of a number begins no earlier than this many frames after it. Of any
two passes the later one begins no earlier than the number of passes between them calls for; so in a
time of some frames from the beginning of a pass, however long that pass was, at most one more pass
begins than frames are due. Every sleep, in a run that ends and in one that does not, is longer than
no time and at most as long as a frame. -/
theorem frames_keep_pace {κ : Type} {clock : Clock κ ℚ} (hclock : clock.Forward) {e : Emulator ℚ}
    {feed : List Batch} {watch : κ} {first : Loop κ ℚ}
    (hstart : Loop.start clock e feed watch = .ok first) :
    ∃ opened rest, clock.read watch = .ok (opened, rest) ∧
      (∀ k now, first.beginning? clock k = some now → opened + k * Time.frame ≤ now) ∧
      (∀ j k earlier later, j < k → first.beginning? clock j = some earlier →
        first.beginning? clock k = some later →
          ((k : ℚ) - j - 1) * Time.frame ≤ later - earlier) ∧
      (∀ j k n : Nat, ∀ earlier later, j < k → first.beginning? clock j = some earlier →
        first.beginning? clock k = some later → later < earlier + n * Time.frame → k ≤ j + n) ∧
      (∀ k l, first.before? clock k = some l →
        ∀ delay ∈ (l.pass clock).2.sleeps, 0 < delay ∧ delay ≤ Time.frame) ∧
      ∀ passes result final, first.run clock passes = some (result, final) →
        ∀ delay ∈ final.sleeps, 0 < delay ∧ delay ≤ Time.frame := by
  obtain ⟨hopened, hfirst⟩ := Loop.start_onPace hclock hstart
  have hspaced : ∀ j k earlier later, j < k → first.beginning? clock j = some earlier →
      first.beginning? clock k = some later →
        ((k : ℚ) - j - 1) * Time.frame ≤ later - earlier := by
    intro j k earlier later hjk hearlier hlater
    obtain ⟨n, rfl⟩ := Nat.exists_eq_add_of_lt hjk
    obtain ⟨last, rest, hlast, hnow⟩ := Loop.beginning?_eq_some_iff.mp hlater
    obtain ⟨l, rest', hl, hread⟩ := Loop.beginning?_eq_some_iff.mp hearlier
    obtain ⟨l', hl', hrest⟩ := Loop.before?_add_eq_some (Nat.add_assoc j n 1 ▸ hlast)
    obtain rfl : l = l' := Option.some.inj (hl.symm.trans hl')
    obtain ⟨honPace, -⟩ := hfirst.before? hclock hl
    obtain ⟨hlaterPace, hle⟩ := honPace.spaced hclock hrest hread
    have hdue := hlaterPace.due later rest hnow
    push_cast
    linarith
  have hsleeps : ∀ k l, first.before? clock k = some l →
      ∀ delay ∈ (l.pass clock).2.sleeps, 0 < delay ∧ delay ≤ Time.frame :=
    fun k l hl => (hfirst.before? hclock hl).1.pass_sleeps hclock
  refine ⟨_, _, hopened, ?_, hspaced, ?_, hsleeps, ?_⟩
  · intro k now hnow
    obtain ⟨last, rest, hlast, hread⟩ := Loop.beginning?_eq_some_iff.mp hnow
    obtain ⟨honPace, hle⟩ := hfirst.before? hclock hlast
    exact hle.trans (honPace.due now rest hread)
  · intro j k n earlier later hjk hearlier hlater hwindow
    have hgap := hspaced j k earlier later hjk hearlier hlater
    have hframe : (0 : ℚ) < Time.frame := by norm_num [Time.frame]
    have hlt : (k : ℚ) - j - 1 < n := lt_of_mul_lt_mul_right (by linarith) hframe.le
    have hcast : (k : ℚ) < (j + n + 1 : Nat) := by
      push_cast
      linarith
    exact Nat.lt_succ_iff.mp (Nat.cast_lt.mp hcast)
  · intro passes result final hrun
    obtain ⟨k, last, hlast, hkept⟩ := Loop.run_eq_some hrun
    rw [hkept]
    exact hsleeps k last hlast

/-- The first frame takes six frames' time, and the next two take less than one. -/
def stallCost (n : Nat) : ℚ := [0, 1 / 10, 0, 1 / 100, 0, 1 / 1000].getD n 0

/-- Three frames of a program that jumps to itself, and then the user quits. The second of them is
run at once after the stall, the third early, and the fourth a frame's length after the second. -/
theorem frames_keep_pace_stall :
    ∃ first final : Loop (ℚ × Nat) ℚ,
      (Clock.ofCosts stallCost).Forward ∧
        Loop.start (Clock.ofCosts stallCost)
          (Emulator.new (.opening { modernProcessor with platform := slowModern }
            Emulator.spinningProgram) (.ofKeymap ⟨Vector.ofFn fun k => k.val⟩))
          [{}, {}, {}, { quit := true }] (0, 0) = .ok first ∧
        first.beginning? (Clock.ofCosts stallCost) 1 = some (1 / 10) ∧
        first.beginning? (Clock.ofCosts stallCost) 2 = some (11 / 100) ∧
        first.beginning? (Clock.ofCosts stallCost) 3 = some (7 / 60) ∧
        (((3 : Nat) : ℚ) - (1 : Nat) - 1) * Time.frame ≤ (7 / 60 : ℚ) - 1 / 10 ∧
        first.run (Clock.ofCosts stallCost) 4 = some (.ok (), final) ∧
        final.sleeps = [17 / 3000] ∧ (0 < (17 / 3000 : ℚ) ∧ (17 / 3000 : ℚ) ≤ Time.frame) := by
  have hforward : (Clock.ofCosts stallCost).Forward := by
    refine Clock.forward_ofCosts fun n => ?_
    have hcosts : ∀ c ∈ ([0, 1 / 10, 0, 1 / 100, 0, 1 / 1000] : List ℚ), 0 ≤ c := by decide +kernel
    rw [stallCost, List.getD_eq_getElem?_getD]
    cases hcost : ([0, 1 / 10, 0, 1 / 100, 0, 1 / 1000] : List ℚ)[n]? with
    | none => exact le_rfl
    | some c => exact hcosts c (List.mem_of_getElem? hcost)
  obtain ⟨first, hstart, hbegin, hend⟩ : ∃ first, Loop.start (Clock.ofCosts stallCost)
      (Emulator.new (.opening { modernProcessor with platform := slowModern }
        Emulator.spinningProgram) (.ofKeymap ⟨Vector.ofFn fun k => k.val⟩))
      [{}, {}, {}, { quit := true }] (0, 0) = .ok first ∧
      [1, 2, 3].map (first.beginning? (Clock.ofCosts stallCost)) =
        [some (1 / 10), some (11 / 100), some (7 / 60)] ∧
      (first.run (Clock.ofCosts stallCost) 4).map (fun r => (r.1, r.2.sleeps)) =
        some (.ok (), [17 / 3000]) := ⟨_, rfl, by decide +kernel, by decide +kernel⟩
  simp only [List.map_cons, List.map_nil, List.cons.injEq, and_true] at hbegin
  obtain ⟨hone, htwo, hthree⟩ := hbegin
  obtain ⟨⟨result, final⟩, hrun, houtcome⟩ := Option.map_eq_some_iff.mp hend
  simp only [Prod.mk.injEq] at houtcome
  obtain ⟨rfl, hsleeps⟩ := houtcome
  obtain ⟨opened, rest, -, -, hspaced, -, -, hslept⟩ := frames_keep_pace hforward hstart
  refine ⟨first, final, hforward, hstart, hone, htwo, hthree,
    hspaced 1 3 _ _ (by decide) hone hthree, hrun, hsleeps, ?_⟩
  exact hslept 4 _ final hrun _ (by rw [hsleeps]; exact List.mem_singleton_self _)

end Chip8.Host
