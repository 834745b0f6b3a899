/-
  What a host can rely on, whatever it does with a session and in whatever order. The tone sounds
  only while the session runs. A fault is recorded only when the session goes off, and it stays
  recorded, and the session off, until a program is started. While a session does not run its
  machine stands still, but for the keys and the wish to end the frame. And the number of steps is
  what the host was told since it started the program (`session_discipline`).
-/
import Chip8.Proofs.Faults
import Chip8.Proofs.Frames
namespace Chip8

/-- What an operation that starts no program may do to a machine that does not run. -/
def Operation.Spares (before after : Machine) : Operation → Prop
  | .setKeys _ | .clearKeys => after = { before with keypad := after.keypad }
  | .runFrame => after = { before with awaitingBlank := after.awaitingBlank }
  | .load _ | .step | .pause | .powerOff => after = before

namespace Session

/-! ## Starting a program -/

section Starts

variable [Capacity]

/-- The operation starts a program. -/
def starts (s : Session) : Operation → Bool
  | .load program => (s.load program).result.isOk
  | _ => false

/-- None of the operations starts a program. -/
def StartsNone (s : Session) : List Operation → Prop
  | [] => True
  | op :: rest => s.starts op = false ∧ (s.perform op).StartsNone rest

/-- A load that starts no program changes nothing. -/
theorem load_of_not_starts {s : Session} {program : List UInt8}
    (h : s.starts (.load program) = false) : (s.load program).session = s := by
  cases hm : Machine.boot s.processor.platform program with
  | error e => rw [load_of_boot_error hm]
  | ok m =>
    rw [starts, load_of_boot hm] at h
    cases h

/-- A program is started on a new machine, with nothing left of the session before. -/
theorem load_of_starts {s : Session} {program : List UInt8}
    (h : s.starts (.load program) = true) :
    ∃ m : Machine, (s.load program).session =
      { processor := s.processor, machine := m, status := .running } := by
  cases hm : Machine.boot s.processor.platform program with
  | error e =>
    rw [starts, load_of_boot_error hm] at h
    cases h
  | ok m => exact ⟨m, by rw [load_of_boot hm]⟩

end Starts

/-! ## The tone and the fault -/

/-- The tone sounds only while the session runs, and a fault is recorded only if it is off. -/
structure Disciplined (s : Session) : Prop where
  tone : s.tone = true → s.status = .running
  fault : ∀ f, s.fault = some f → s.status = .off

theorem Disciplined.step {s : Session} (h : s.Disciplined) : s.step.session.Disciplined := by
  have hcourse := s.step_course
  generalize s.step = reply at hcourse ⊢
  cases hcourse with
  | idle => exact h
  | halted | finished => exact ⟨nofun, fun _ _ => rfl⟩
  | refused => exact ⟨h.tone, h.fault⟩
  | ticked hs => exact ⟨fun _ => beq_iff_eq.mp hs, h.fault⟩

theorem Disciplined.perform [Capacity] {s : Session} (h : s.Disciplined) (op : Operation) :
    (s.perform op).Disciplined := by
  cases op with
  | load program =>
    cases hstarts : s.starts (.load program) with
    | false =>
      rw [Session.perform, load_of_not_starts hstarts]
      exact h
    | true =>
      obtain ⟨m, hm⟩ := load_of_starts hstarts
      rw [Session.perform, hm]
      exact ⟨fun _ => rfl, fun f hf => by cases hf⟩
  | step => exact h.step
  | runFrame =>
    exact runFrame_keeps (fun _ => Disciplined.step) (fun _ h => ⟨h.tone, h.fault⟩) h
  | setKeys | clearKeys => exact ⟨h.tone, h.fault⟩
  | pause =>
    simp only [Session.perform, pause]
    split
    · rename_i hstatus
      refine ⟨fun htone => absurd htone Bool.false_ne_true, fun f hf => ?_⟩
      rw [h.fault f hf] at hstatus
      cases hstatus
    · rename_i hstatus
      refine ⟨fun _ => rfl, fun f hf => ?_⟩
      rw [h.fault f hf] at hstatus
      cases hstatus
    · exact h
  | powerOff => exact ⟨fun htone => absurd htone Bool.false_ne_true, fun _ _ => rfl⟩

/-! ## Sessions that do not run -/

section Idle

variable {s : Session} (hidle : s.isRunning = false)

include hidle

theorem step_idle : s.step = ⟨.ok false, s, []⟩ := (Course.idle hidle).step_eq

theorem runFrame_idle : s.runFrame.session = s.endFrame := by
  have hticks : ∀ n, ticks n s 0 #[] = ⟨.ok 0, s, []⟩ := by
    intro n
    cases n with
    | zero => rfl
    | succ n =>
      rw [ticks, step_idle hidle]
      rfl
  unfold runFrame
  dsimp only
  rw [hticks]
  rfl

/-- The machine of a session that does not run stands still. -/
theorem perform_spares [Capacity] {op : Operation} (hstarts : s.starts op = false) :
    op.Spares s.machine (s.perform op).machine := by
  cases op with
  | load program =>
    rw [perform, load_of_not_starts hstarts]
    rfl
  | step =>
    rw [perform, step_idle hidle]
    rfl
  | runFrame =>
    rw [perform, runFrame_idle hidle]
    rfl
  | setKeys | clearKeys | powerOff => rfl
  | pause =>
    rw [perform, pause]
    split <;> rfl

end Idle

section Off

variable [Capacity] {s : Session} (hoff : s.status = .off)

include hoff

theorem perform_off {op : Operation} (hstarts : s.starts op = false) :
    (s.perform op).status = .off ∧ (s.perform op).fault = s.fault := by
  have hidle : s.isRunning = false := by rw [isRunning, hoff]; rfl
  cases op with
  | load program =>
    rw [perform, load_of_not_starts hstarts]
    exact ⟨hoff, rfl⟩
  | step =>
    rw [perform, step_idle hidle]
    exact ⟨hoff, rfl⟩
  | runFrame =>
    rw [perform, runFrame_idle hidle]
    exact ⟨hoff, rfl⟩
  | setKeys | clearKeys => exact ⟨hoff, rfl⟩
  | powerOff => exact ⟨rfl, rfl⟩
  | pause =>
    simp only [perform, pause, hoff, and_self]

/-- A session that is off stays off, with its fault, until a program is started. -/
theorem after_off {history : List Operation} (hnone : s.StartsNone history) :
    (s.after history).status = .off ∧ (s.after history).fault = s.fault := by
  induction history generalizing s with
  | nil => exact ⟨hoff, rfl⟩
  | cons op history ih =>
    obtain ⟨hstarts, hrest⟩ := hnone
    obtain ⟨hstays, hkept⟩ := perform_off hoff hstarts
    obtain ⟨hlast, hfault⟩ := ih hstays hrest
    exact ⟨hlast, hfault.trans hkept⟩

end Off

/-! ## Counting the steps -/

/-- How many instructions a step says it has executed. -/
def executedBy : Except Failure Bool → Nat
  | .ok executed => executed.toNat
  | .error _ => 0

/-- How many instructions an operation says it has executed. A frame that is refused says
nothing. -/
def executed? (s : Session) : Operation → Option Nat
  | .step => some (executedBy s.step.result)
  | .runFrame => s.runFrame.result.toOption
  | _ => some 0

/-- The instructions that the operations say they have executed since a program was started, if
they all do. Those before are counted already. -/
def tally [Capacity] (s : Session) (count : Option Nat) : List Operation → Option Nat
  | [] => count
  | op :: rest =>
    (s.perform op).tally
      (if s.starts op then some 0
        else count.bind fun n => (s.executed? op).map fun executed => n + executed) rest

theorem step_steps (s : Session) :
    s.step.session.steps = s.steps + executedBy s.step.result := by
  have hcourse := s.step_course
  generalize s.step = reply at hcourse ⊢
  cases hcourse with
  | idle | halted | refused | finished | ticked => rfl

theorem ticks_steps {s : Session} {n executed count : Nat} {log : Array Record}
    (h : (ticks n s executed log).result = .ok count) :
    (ticks n s executed log).session.steps + executed = s.steps + count := by
  induction n generalizing s executed log with
  | zero =>
    cases h
    rfl
  | succ n ih =>
    have hsteps := s.step_steps
    cases hgoes : s.goesOn with
    | true =>
      rw [ticks_of_goesOn n executed log hgoes] at h ⊢
      have hrest := ih h
      rw [hsteps, (goesOn_iff.mp hgoes).1, executedBy, Bool.toNat_true] at hrest
      omega
    | false =>
      obtain ⟨hresult, hsession, -⟩ := ticks_of_not_goesOn n executed log hgoes
      rw [hresult] at h
      rw [hsession, hsteps]
      cases hstep : s.step.result with
      | error e =>
        rw [hstep] at h
        cases h
      | ok executing =>
        rw [hstep] at h
        have hcount : executed + executing.toNat = count := Except.ok.inj h
        rw [executedBy]
        omega

theorem runFrame_steps {s : Session} {count : Nat} (h : s.runFrame.result = .ok count) :
    s.runFrame.session.steps = s.steps + count := by
  have hticks := ticks_steps (s.runFrame_result.symm.trans h)
  rw [(ticks_stepped _ s 0 #[]).1] at hticks
  rw [runFrame_session h]
  exact hticks

section Steps

variable [Capacity]

theorem perform_starts {s : Session} {op : Operation} (hstarts : s.starts op = true) :
    (s.perform op).steps = 0 := by
  cases op with
  | load program =>
    obtain ⟨m, hm⟩ := load_of_starts hstarts
    rw [perform, hm]
  | _ => cases hstarts

/-- An operation adds to the steps what it says it has executed. -/
theorem perform_steps {s : Session} {op : Operation} (hstarts : s.starts op = false) {n : Nat}
    (h : s.executed? op = some n) : (s.perform op).steps = s.steps + n := by
  cases op with
  | load program =>
    cases h
    rw [perform, load_of_not_starts hstarts]
    rfl
  | step =>
    cases h
    exact s.step_steps
  | runFrame =>
    cases hframe : s.runFrame.result with
    | error e =>
      rw [executed?, hframe] at h
      cases h
    | ok count =>
      rw [executed?, hframe] at h
      cases h
      exact runFrame_steps hframe
  | setKeys | clearKeys | powerOff =>
    cases h
    rfl
  | pause =>
    cases h
    rw [perform, pause]
    split <;> rfl

/-- What the operations say they have executed is what the session has counted. -/
theorem after_steps {s : Session} {count : Option Nat} {n : Nat} {history : List Operation}
    (hcount : ∀ m, count = some m → s.steps = m) (h : s.tally count history = some n) :
    (s.after history).steps = n := by
  induction history generalizing s count with
  | nil => exact hcount n h
  | cons op history ih =>
    refine ih ?_ h
    intro m hm
    cases hstarts : s.starts op with
    | true =>
      rw [hstarts, if_pos rfl] at hm
      cases hm
      exact perform_starts hstarts
    | false =>
      rw [hstarts] at hm
      obtain ⟨k, hk, hsome⟩ := Option.bind_eq_some_iff.mp hm
      obtain ⟨executed, hexecuted, rfl⟩ := Option.map_eq_some_iff.mp hsome
      rw [perform_steps hstarts hexecuted, hcount k hk]

/-- On a platform with a screen, and with random numbers that never end, no frame is refused, and
the host is told of every instruction. -/
theorem tally_isSome {p : Platform} (hp : p.Sized) {s : Session} (hs : s.Guarded p) (n : Nat)
    (history : List Operation) : ∃ m, s.tally (some n) history = some m := by
  induction history generalizing s n with
  | nil => exact ⟨n, rfl⟩
  | cons op history ih =>
    have hnext := perform_guarded hp hs op
    obtain ⟨executed, hexecuted⟩ : ∃ executed, s.executed? op = some executed := by
      cases op with
      | runFrame =>
        obtain ⟨count, hcount⟩ := runFrame_ok hp hs
        exact ⟨count, by rw [executed?, hcount]; rfl⟩
      | _ => exact ⟨_, rfl⟩
    rw [tally, hexecuted]
    split
    · exact ih hnext 0
    · exact ih hnext (n + executed)

end Steps

end Session

/-- The discipline of a session. Whatever a host has done with a new session, the tone sounds only
while it runs. If a fault is recorded the session is off, and until a program is started the fault
stays as it is. A session that is off stays off until a program is started. While it does not run,
an operation that starts no program leaves its machine as it is, but that the host may set the keys
and that a frame takes back the wish to end it. The number of steps is what steps and frames have
said they executed since a program was started, if they all did; and they all do on a platform with
a screen, such as every configured one, with random numbers that never end. -/
theorem session_discipline [Capacity] {cpu : Processor} {s₀ : Session}
    (hnew : Session.new cpu = .ok s₀) (history : List Operation) :
    ∀ s : Session, s = s₀.after history →
      (s.tone = true → s.status = .running) ∧
      (∀ f, s.fault = some f → s.status = .off ∧
        ∀ future, s.StartsNone future → (s.after future).fault = some f) ∧
      (s.status = .off → ∀ future, s.StartsNone future → (s.after future).status = .off) ∧
      (s.status ≠ .running → ∀ op, s.starts op = false →
        op.Spares s.machine (s.perform op).machine) ∧
      (∀ n, s₀.tally (some 0) history = some n → s.steps = n) ∧
      (cpu.platform.Sized → cpu.source.Endless →
        s₀.tally (some 0) history = some s.steps) := by
  rintro s rfl
  obtain ⟨m, hs₀⟩ := Session.new_parts hnew
  have hdisciplined : (s₀.after history).Disciplined :=
    Session.after_keeps (fun _ op h => h.perform op) (by rw [hs₀]; exact ⟨nofun, nofun⟩) history
  have htally : ∀ n, s₀.tally (some 0) history = some n → (s₀.after history).steps = n := by
    intro n h
    refine Session.after_steps ?_ h
    rintro _ ⟨⟩
    rw [hs₀]
  refine ⟨hdisciplined.tone, ?_, fun hoff future hnone => (Session.after_off hoff hnone).1, ?_,
    htally, ?_⟩
  · intro f hf
    have hoff := hdisciplined.fault f hf
    exact ⟨hoff, fun future hnone => (Session.after_off hoff hnone).2.trans hf⟩
  · intro hstatus op hstarts
    exact Session.perform_spares (beq_eq_false_iff_ne.mpr hstatus) hstarts
  · intro hsized hsource
    obtain ⟨hsame, hwell⟩ := Session.new_wellFormedOn hsized rfl
    have hguarded : s₀.Guarded cpu.platform := by
      obtain rfl := Except.ok.inj (hsame.symm.trans hnew)
      exact ⟨hwell, hsource, fun _ => rfl, nofun⟩
    obtain ⟨n, hn⟩ := Session.tally_isSome hsized hguarded 0 history
    rw [hn, htally n hn]

/-- A program that loads a register and then returns from no call, and a program that is too long
and is refused. -/
def faultyHistory : List Operation :=
  [.load [0x60, 0x01, 0x00, 0xEE], .step, .pause, .pause, .runFrame,
    .load (List.replicate 4000 0)]

attribute [local instance] Capacity.least in
theorem session_discipline_faulty :
    Session.new modernProcessor = .ok modernSession ∧
      (modernSession.after faultyHistory).fault = some .stackUnderflow ∧
      (∀ future, (modernSession.after faultyHistory).StartsNone future →
        ((modernSession.after faultyHistory).after future).fault = some .stackUnderflow) ∧
      modernSession.tally (some 0) faultyHistory = some 1 := by
  have hnew : Session.new modernProcessor = .ok modernSession := rfl
  have hrun : (modernSession.after faultyHistory).fault = some .stackUnderflow ∧
      (modernSession.after faultyHistory).steps = 1 := by decide +kernel
  obtain ⟨hfault, hsteps⟩ := hrun
  obtain ⟨-, hfaults, -, -, -, htally⟩ := session_discipline hnew faultyHistory _ rfl
  have hcount := htally (Platform.sized_of_geometry rfl) (fun _ => ⟨_, rfl⟩)
  rw [hsteps] at hcount
  exact ⟨hnew, hfault, (hfaults _ hfault).2, hcount⟩

end Chip8
