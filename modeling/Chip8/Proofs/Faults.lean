/-
  The faults of a guest. On a well-formed machine, with random numbers that never end, a step is
  stopped by a call with all slots in use, by a return with no call open, and by a counter on the
  last byte of the memory, and by nothing else (`step_error_iff`). All three are faults, so a
  session catches them: on a configured platform no history of a session makes a step or a frame
  fail (`configured_faults`).
-/
import Chip8.Proofs.History
namespace Chip8

namespace Source

/-- Every number that is asked for is there. -/
def Endless (s : Source) : Prop := ∀ n, ∃ number, s.stream n = some number

theorem next_ok {s : Source} (hs : s.Endless) : ∃ number t, s.next = .ok (number, t) := by
  obtain ⟨number, h⟩ := hs s.taken
  unfold next
  rw [h]
  exact ⟨_, _, rfl⟩

/-- A source of numbers that never end. -/
def ofNumbers (numbers : Nat → Int) : Source := ⟨fun n => some (numbers n), 0⟩

theorem endless_ofNumbers (numbers : Nat → Int) : (ofNumbers numbers).Endless :=
  fun n => ⟨numbers n, rfl⟩

end Source

/-! ## The faults of a machine -/

namespace Instruction

/-- On a well-formed machine only calls and returns can be stopped. -/
theorem failureOn_wellFormed {m : Machine} (hm : m.WellFormed) (i : Instruction) (e : Failure) :
    i.failureOn m = some e ↔
      (e = .fault .stackOverflow ∧ (∃ target, i = .call target) ∧ m.stack.depth = stackDepth) ∨
      (e = .fault .stackUnderflow ∧ i = .ret ∧ m.stack.depth = 0) := by
  constructor
  · intro h
    cases i with
    | call target =>
      simp only [failureOn, Option.ite_none_right_eq_some, Option.some.injEq] at h
      exact Or.inl ⟨h.2.symm, ⟨target, rfl⟩, h.1⟩
    | ret =>
      simp only [failureOn, Option.ite_none_right_eq_some, Option.some.injEq] at h
      exact Or.inr ⟨h.2.symm, rfl, h.1⟩
    | readDelay x =>
      have hdelay := hm.delay
      rw [failureOn, if_pos (by omega)] at h
      cases h
    | _ => cases h
  · rintro (⟨rfl, ⟨target, rfl⟩, hd⟩ | ⟨rfl, rfl, hd⟩)
    · exact if_pos hd
    · exact if_pos hd

end Instruction

namespace Machine

/-- What stops the next step of an unfinished machine, if there are random numbers. -/
def stop? (m : Machine) : Option Failure :=
  if m.fetchInBounds then m.instruction?.bind fun i => i.failureOn m
  else some (.fault (.counterOutside m.counter))

theorem stop?_eq_some_iff {m : Machine} (hm : m.WellFormed) (hf : m.counter < m.programEnd)
    (e : Failure) :
    m.stop? = some e ↔
      (e = .fault .stackOverflow ∧ (∃ target, m.instruction? = some (.call target)) ∧
        m.stack.depth = stackDepth) ∨
      (e = .fault .stackUnderflow ∧ m.instruction? = some .ret ∧ m.stack.depth = 0) ∨
      (e = .fault (.counterOutside 0xFFF) ∧ m.counter = 0xFFF) := by
  have hcounter := hm.counter
  have hend := hm.programEnd
  unfold stop?
  cases hb : m.fetchInBounds with
  | false =>
    have hout := mt fetchInBounds_iff.mpr (by rw [hb]; exact Bool.false_ne_true)
    have hlast : m.counter = 0xFFF := by omega
    have hnone : m.instruction? = none := by
      simp only [instruction?, word?, hb, Bool.false_eq_true, if_false, Option.bind_none]
    simp [hlast, hnone, eq_comm]
  | true =>
    have hin := fetchInBounds_iff.mp hb
    have hlast : m.counter ≠ 0xFFF := by omega
    rw [if_pos rfl]
    cases hi : m.instruction? with
    | none => simp [hlast]
    | some i =>
      rw [Option.bind_some, Instruction.failureOn_wellFormed hm]
      simp [hlast]

end Machine

namespace Processor

variable {cpu : Processor} {m : Machine}

theorem numberFor_ok (hcpu : cpu.source.Endless) (i : Instruction) :
    ∃ number source, cpu.numberFor i = .ok (number, source) := by
  unfold numberFor
  split
  · exact Source.next_ok hcpu
  · exact ⟨_, _, rfl⟩

/-- A step fails exactly if something stops it, and then it does so with that. -/
theorem step_result (hcpu : cpu.source.Endless) (hm : m.Shaped) (hf : m.isFinished = false) :
    (∃ e, m.stop? = some e ∧ (cpu.step m).result = .error e) ∨
      (m.stop? = none ∧ ∃ tone, (cpu.step m).result = .ok tone) := by
  have hcourse := cpu.step_course m
  generalize cpu.step m = run at hcourse ⊢
  unfold Machine.stop?
  cases hcourse with
  | finished h =>
    rw [hf] at h
    cases h
  | outside _ hb =>
    rw [hb]
    exact Or.inl ⟨_, rfl, rfl⟩
  | dry _ _ hi hn =>
    obtain ⟨number, source, h⟩ := numberFor_ok hcpu _
    rw [h] at hn
    cases hn
  | unknown _ hb hi =>
    rw [if_pos hb, Machine.instruction?_of_inBounds hb, hi]
    exact Or.inr ⟨rfl, _, rfl⟩
  | stopped _ hb hi hn he =>
    rw [if_pos hb, Machine.instruction?_of_inBounds hb, hi, Option.bind_some,
      ← (Instruction.effect_failure hm _ _ _).1, he]
    exact Or.inl ⟨_, rfl, rfl⟩
  | done _ hb hi hn he =>
    rw [if_pos hb, Machine.instruction?_of_inBounds hb, hi, Option.bind_some,
      ← (Instruction.effect_failure hm _ _ _).1, he]
    exact Or.inr ⟨rfl, _, rfl⟩

/-- What stops a step on a well-formed machine whose program has not finished. -/
theorem step_error_iff (hcpu : cpu.source.Endless) (hm : m.WellFormed)
    (hf : m.counter < m.programEnd) (e : Failure) :
    (cpu.step m).result = .error e ↔
      (e = .fault .stackOverflow ∧ (∃ target, m.instruction? = some (.call target)) ∧
        m.stack.depth = stackDepth) ∨
      (e = .fault .stackUnderflow ∧ m.instruction? = some .ret ∧ m.stack.depth = 0) ∨
      (e = .fault (.counterOutside 0xFFF) ∧ m.counter = 0xFFF) := by
  have hfinished : m.isFinished = false := by
    rw [Machine.isFinished, decide_eq_false_iff_not]
    omega
  rw [← Machine.stop?_eq_some_iff hm hf]
  rcases step_result hcpu hm.toShaped hfinished with ⟨g, hg, hr⟩ | ⟨hnone, tone, hr⟩
  · rw [hg, hr, Except.error.injEq, Option.some.injEq]
  · rw [hnone, hr]
    simp only [reduceCtorEq]

theorem step_finished (hf : m.programEnd ≤ m.counter) : (cpu.step m).result = .ok none := by
  unfold step
  rw [if_pos (Machine.isFinished_iff.mpr hf)]

end Processor

/-- The faults that a guest can bring about. -/
def guestFaults : List Fault := [.stackOverflow, .stackUnderflow, .counterOutside 0xFFF]

/-- On a well-formed machine a step that fails does so with a fault of the guest. -/
theorem Processor.step_guestFault {cpu : Processor} (hcpu : cpu.source.Endless) {m : Machine}
    (hm : m.WellFormed) {e : Failure} (h : (cpu.step m).result = .error e) :
    ∃ f ∈ guestFaults, e = .fault f := by
  by_cases hf : m.counter < m.programEnd
  · rcases (step_error_iff hcpu hm hf e).mp h with ⟨he, -⟩ | ⟨he, -⟩ | ⟨he, -⟩
    · exact ⟨_, by decide, he⟩
    · exact ⟨_, by decide, he⟩
    · exact ⟨_, by decide, he⟩
  · rw [step_finished (by omega)] at h
    cases h

/-! ## The faults of a session -/

namespace Session

/-- A step leaves random numbers that never end. -/
theorem step_endless {s : Session} (h : s.processor.source.Endless) :
    s.step.session.processor.source.Endless := by
  unfold Source.Endless
  rcases s.step_parts with ⟨hcpu, -⟩ | ⟨hcpu, -⟩
  · rw [hcpu]
    exact h
  · rw [hcpu, (s.processor.step_processor s.machine).2]
    exact h

section Frames

variable {P : Session → Prop}
  (hstep : ∀ s, P s → P s.step.session ∧ ∃ executed, s.step.result = .ok executed)

include hstep

theorem ticks_ok_of_steps {s : Session} (h : P s) (n executed : Nat) (log : Array Record) :
    ∃ count, (ticks n s executed log).result = .ok count := by
  induction n generalizing s executed log with
  | zero => exact ⟨_, rfl⟩
  | succ n ih =>
    obtain ⟨hnext, b, hb⟩ := hstep s h
    simp only [ticks, hb]
    cases b with
    | false => exact ⟨_, rfl⟩
    | true =>
      dsimp only
      split
      · exact ⟨_, rfl⟩
      · exact ih hnext _ _

/-- If none of its steps can be refused, a frame is not refused. -/
theorem runFrame_ok_of_steps {s : Session} (h : P s) : ∃ count, s.runFrame.result = .ok count := by
  obtain ⟨count, h⟩ := ticks_ok_of_steps hstep h s.processor.platform.tickRate.toNat 0 #[]
  unfold runFrame
  dsimp only
  rw [h]
  exact ⟨count, rfl⟩

end Frames

/-- A well-formed session with random numbers that never end, which has a fault of the guest only
if it is off. -/
structure Guarded (p : Platform) (s : Session) : Prop extends WellFormedOn p s where
  source : s.processor.source.Endless
  calm : s.status ≠ .off → s.fault = none
  faults : ∀ f, s.fault = some f → f ∈ guestFaults

section Guarded

variable [Capacity] {p : Platform} (hp : p.Sized) {s : Session}

include hp

theorem step_guarded (hs : s.Guarded p) :
    s.step.session.Guarded p ∧ ∃ executed, s.step.result = .ok executed := by
  have hkept := step_wellFormedOn hp hs.toWellFormedOn
  have hstop := @Processor.step_guestFault _ hs.source _ hs.machine.toWellFormed
  have hsource := step_endless hs.source
  have hcourse := s.step_course
  generalize s.step = reply at hkept hsource hcourse ⊢
  cases hcourse with
  | idle => exact ⟨hs, _, rfl⟩
  | halted _ hr =>
    obtain ⟨f, hf, he⟩ := hstop hr
    cases he
    refine ⟨⟨hkept, hsource, fun h => absurd rfl h, ?_⟩, _, rfl⟩
    intro g hg
    cases hg
    exact hf
  | refused _ hr =>
    obtain ⟨f, -, he⟩ := hstop hr
    cases he
  | finished => exact ⟨⟨hkept, hsource, fun h => absurd rfl h, hs.faults⟩, _, rfl⟩
  | ticked => exact ⟨⟨hkept, hsource, hs.calm, hs.faults⟩, _, rfl⟩

theorem runFrame_ok (hs : s.Guarded p) : ∃ count, s.runFrame.result = .ok count :=
  runFrame_ok_of_steps (fun _ => step_guarded hp) hs

theorem perform_guarded (hs : s.Guarded p) (op : Operation) : (s.perform op).Guarded p := by
  have hkept := perform_wellFormedOn hp hs.toWellFormedOn op
  cases op with
  | load program =>
    have hsized : s.processor.platform.Sized := by rw [hs.platform]; exact hp
    by_cases h : program.length ≤ maxProgramSize
    · obtain ⟨m, -, -, hload⟩ := load_fits hsized h
      rw [perform, hload] at hkept ⊢
      exact ⟨hkept, hs.source, fun _ => rfl, fun f hf => absurd hf.symm (Option.some_ne_none f)⟩
    · rw [perform, load_tooLong hsized (by omega)]
      exact hs
  | step => exact (step_guarded hp hs).1
  | runFrame =>
    exact runFrame_keeps (P := Guarded p) (fun _ h => (step_guarded hp h).1)
      (fun _ h => ⟨⟨h.platform, { h.machine with }⟩, h.source, h.calm, h.faults⟩) hs
  | setKeys | clearKeys => exact ⟨hkept, hs.source, hs.calm, hs.faults⟩
  | pause =>
    simp only [perform, pause] at hkept ⊢
    split
    · rename_i hstatus
      exact ⟨⟨hs.platform, hs.machine⟩, hs.source, fun _ => hs.calm (by rw [hstatus]; decide),
        hs.faults⟩
    · rename_i hstatus
      exact ⟨⟨hs.platform, hs.machine⟩, hs.source, fun _ => hs.calm (by rw [hstatus]; decide),
        hs.faults⟩
    · exact hs
  | powerOff => exact ⟨hkept, hs.source, fun h => absurd rfl h, hs.faults⟩

theorem after_guarded (hs : s.Guarded p) (history : List Operation) :
    (s.after history).Guarded p :=
  after_keeps (P := Guarded p) (fun _ op h => perform_guarded hp h op) hs history

end Guarded

/-- A running session records a fault exactly if its machine runs into it. -/
theorem step_fault_iff {s : Session} (hs : s.isRunning = true) (hnone : s.fault = none)
    (f : Fault) :
    s.step.session.fault = some f ↔
      (s.processor.step s.machine).result = .error (.fault f) := by
  have hcourse := s.step_course
  generalize s.step = reply at hcourse ⊢
  cases hcourse with
  | idle hoff =>
    rw [hs] at hoff
    cases hoff
  | halted _ hr =>
    rw [hr]
    simp only [Option.some.injEq, Except.error.injEq, Failure.fault.injEq]
  | refused _ hr | finished _ hr | ticked _ hr =>
    rw [hr]
    exact ⟨fun h => absurd (hnone.symm.trans h) nofun, nofun⟩

/-- The faults that the next step of a running session records, read off the word at the counter
and the entries in use. -/
theorem running_faults {p : Platform} {s : Session} (hs : s.Guarded p) (hrun : s.isRunning = true)
    (hf : s.machine.counter < s.machine.programEnd) :
    (s.step.session.fault = some .stackOverflow ↔
      (∃ nnn < 0x1000, s.machine.word? = some (0x2000 + nnn)) ∧
        s.machine.stack.entries.length = 16) ∧
    (s.step.session.fault = some .stackUnderflow ↔
      s.machine.word? = some 0x00EE ∧ s.machine.stack.entries.length = 0) ∧
    (s.step.session.fault = some (.counterOutside 0xFFF) ↔ s.machine.counter = 0xFFF) := by
  have hnone : s.fault = none := by
    refine hs.calm fun hoff => ?_
    rw [isRunning, hoff] at hrun
    cases hrun
  have hcall : (∃ target, s.machine.instruction? = some (.call target)) ↔
      ∃ nnn < 0x1000, s.machine.word? = some (0x2000 + nnn) := by
    constructor
    · rintro ⟨target, h⟩
      exact ⟨target.val, target.isLt, Machine.instruction?_eq_some_iff.mp h⟩
    · rintro ⟨nnn, hlt, h⟩
      exact ⟨⟨nnn, hlt⟩, Machine.instruction?_eq_some_iff.mpr h⟩
  have hret : s.machine.instruction? = some .ret ↔ s.machine.word? = some 0x00EE :=
    Machine.instruction?_eq_some_iff
  have hdepth := hs.machine.stack.length_entries
  have hstop := Processor.step_error_iff hs.source hs.machine.toWellFormed hf
  rw [hdepth, ← hcall, ← hret]
  refine ⟨?_, ?_, ?_⟩
  · rw [step_fault_iff hrun hnone, hstop]
    simp
  · rw [step_fault_iff hrun hnone, hstop]
    simp
  · rw [step_fault_iff hrun hnone, hstop]
    simp

end Session

/-- On a configured platform, whatever the host has done and whatever the random numbers are, a
step and a frame never fail. A running session whose program has not finished records a fault
exactly for a call with all sixteen entries in use, for a return with none, and on the last byte
of the memory, which only a program of the greatest size reaches. -/
theorem configured_faults [Capacity] {name : String} {tickRate : Option Int}
    {overrides : List (String × Option Bool)} {p : Platform}
    (hp : Platform.configure name tickRate overrides = .ok p) (numbers : Nat → Int)
    (tracing : Bool) :
    guestFaults.map Fault.message = ["Stack overflow", "Stack underflow",
      "Program counter 0x0fff is outside of memory"] ∧
    ∃ s₀, Session.new { platform := p, source := .ofNumbers numbers, tracing := tracing } =
        .ok s₀ ∧
      ∀ (history : List Operation) (s : Session), s = s₀.after history →
        (∃ executed, s.step.result = .ok executed) ∧
        (∃ count, s.runFrame.result = .ok count) ∧
        (∀ f, s.fault = some f → f ∈ guestFaults) ∧
        (s.isRunning = true → s.machine.counter < s.machine.programEnd →
          (s.step.session.fault = some .stackOverflow ↔
            (∃ nnn < 0x1000, s.machine.word? = some (0x2000 + nnn)) ∧
              s.machine.stack.entries.length = 16) ∧
          (s.step.session.fault = some .stackUnderflow ↔
            s.machine.word? = some 0x00EE ∧ s.machine.stack.entries.length = 0) ∧
          (s.step.session.fault = some (.counterOutside 0xFFF) ↔ s.machine.counter = 0xFFF) ∧
          (∀ f, s.step.session.fault = some f → f ∈ guestFaults) ∧
          (s.machine.counter = 0xFFF → ∃ program,
            lastProgram? history = some program ∧ program.length = 3584)) := by
  have hsized := Platform.sized_of_geometry (Platform.geometry_of_configure hp)
  have hcpu : Processor.platform ⟨p, .ofNumbers numbers, tracing, 0⟩ = p := rfl
  obtain ⟨hnew, hwell⟩ := Session.new_wellFormedOn hsized hcpu
  refine ⟨by decide +kernel, _, hnew, ?_⟩
  rintro history s rfl
  have hs := Session.after_guarded hsized
    ⟨hwell, Source.endless_ofNumbers numbers, fun _ => rfl, nofun⟩ history
  obtain ⟨hnext, hok⟩ := Session.step_guarded hsized hs
  refine ⟨hok, Session.runFrame_ok hsized hs, hs.faults, ?_⟩
  intro hrun hf
  obtain ⟨hoverflow, hunderflow, houtside⟩ := Session.running_faults hs hrun hf
  refine ⟨hoverflow, hunderflow, houtside, hnext.faults, ?_⟩
  intro hlast
  have hend := Session.after_programEnd hsized hwell history
  have hbound := hs.machine.programEnd
  cases hprogram : lastProgram? history with
  | none =>
    rw [hprogram] at hend
    have hstart : (Machine.fresh p).programEnd = 0x200 := rfl
    simp only [hstart] at hend
    omega
  | some program =>
    rw [hprogram] at hend
    simp only [programStart] at hend
    exact ⟨program, rfl, by omega⟩

/-- A session without a program on the platform "modern". -/
def modernSession : Session where
  processor := modernProcessor
  machine := Machine.fresh modernProcessor.platform

attribute [local instance] Capacity.least in
theorem configured_faults_modern :
    Platform.configure "modern" none [] = .ok modernProcessor.platform ∧
      Session.new modernProcessor = .ok modernSession ∧
      (∃ executed, (modernSession.after [.load [0x00, 0xEE]]).step.result = .ok executed) ∧
      (modernSession.after [.load [0x00, 0xEE]]).step.session.fault = some .stackUnderflow := by
  have hp : Platform.configure "modern" none [] = .ok modernProcessor.platform :=
    Platform.configure_of_find? rfl
  have hsession : Session.new modernProcessor = .ok modernSession := rfl
  obtain ⟨-, s₀, hnew, h⟩ := configured_faults hp (fun _ => 0) false
  obtain rfl : modernSession = s₀ := Except.ok.inj (hsession.symm.trans hnew)
  obtain ⟨hok, -, -, hfaults⟩ := h [.load [0x00, 0xEE]] _ rfl
  have hword : (modernSession.after [.load [0x00, 0xEE]]).machine.word? = some 0x00EE := by
    decide +kernel
  exact ⟨hp, hsession, hok, (hfaults rfl (by decide)).2.1.mpr ⟨hword, rfl⟩⟩

end Chip8
