/-
  A program that is loaded knows nothing of the past. Sessions are alike if they differ only in the
  random numbers that were taken before, and in the word that was fetched last where the next step
  fetches another. Every operation keeps sessions alike and tells the same of both
  (`Alike.reply`), and a load makes any two sessions of one platform alike (`load_alike`).

  The word fetched last is not reset by a load, and a fault report shows it. It never shows an old
  one, since a program starts where a whole word lies: the first step fetches it before anything
  can go wrong, or finds the program finished and fetches nothing more.
-/
import Chip8.Proofs.Faults
import Chip8.Proofs.Lockstep
namespace Chip8

/-! ## What operations answer -/

/-- What an operation answers unless it is refused. -/
inductive Answer where
  | done
  /-- Whether an instruction was executed. -/
  | executed (b : Bool)
  /-- How many instructions were executed. -/
  | count (n : Nat)
  deriving DecidableEq

namespace Session

/-- The reply to an operation. -/
def reply [Capacity] (s : Session) : Operation → Reply Answer
  | .load program =>
    let r := s.load program
    ⟨r.result.map fun _ => .done, r.session, r.log⟩
  | .step =>
    let r := s.step
    ⟨r.result.map .executed, r.session, r.log⟩
  | .runFrame =>
    let r := s.runFrame
    ⟨r.result.map .count, r.session, r.log⟩
  | .setKeys states => ⟨(s.setKeys states).1.map fun _ => .done, (s.setKeys states).2, []⟩
  | .clearKeys => ⟨.ok .done, s.clearKeys, []⟩
  | .pause => ⟨.ok .done, s.pause, []⟩
  | .powerOff => ⟨.ok .done, s.powerOff, []⟩

theorem reply_session [Capacity] (s : Session) (op : Operation) :
    (s.reply op).session = s.perform op := by
  cases op <;> rfl

/-! ## Sessions that are alike -/

/-- Sessions that a host cannot tell apart from now on. -/
structure Alike (s t : Session) : Prop where
  machine : t.machine = s.machine
  status : t.status = s.status
  tone : t.tone = s.tone
  fault : t.fault = s.fault
  steps : t.steps = s.steps
  platform : t.processor.platform = s.processor.platform
  processor : s.processor.Alike t.processor
  /-- Where the words differ that were fetched last, the next step fetches another. -/
  opcode : s.machine.fetchInBounds = true ∨ t.processor.opcode = s.processor.opcode

/-- The session with another word left in its processor. -/
def withOpcode (s : Session) (opcode : Int) : Session :=
  { s with processor := { s.processor with opcode := opcode } }

end Session

/-- Replies that a host cannot tell apart. -/
structure Reply.Alike {α : Type} (r q : Reply α) : Prop where
  result : q.result = r.result
  log : q.log = r.log
  session : r.session.Alike q.session

namespace Session

variable {s t : Session}

/-! ## Steps and frames -/

/-- The word fetched last is the same after a step, unless the program had finished. -/
theorem Alike.opcode_ran (h : s.Alike t) (hf : s.machine.isFinished = false) :
    t.ran.processor.opcode = s.ran.processor.opcode := by
  unfold ran
  rw [h.machine]
  exact Processor.step_opcode_eq h.opcode hf

theorem Alike.ran (h : s.Alike t) : s.ran.Alike t.ran := by
  obtain ⟨-, -, hmachine, hcpu⟩ := h.processor.step h.platform s.machine
  have hopcode : s.ran.machine.fetchInBounds = true ∨
      t.ran.processor.opcode = s.ran.processor.opcode := by
    cases hf : s.machine.isFinished with
    | false => exact Or.inr (h.opcode_ran hf)
    | true =>
      unfold Session.ran
      rw [h.machine, s.processor.step_eq_of_finished hf, t.processor.step_eq_of_finished hf]
      exact h.opcode
  unfold Session.ran at hopcode ⊢
  rw [h.machine] at hopcode ⊢
  exact {
    machine := hmachine
    status := h.status
    tone := h.tone
    fault := h.fault
    steps := h.steps
    platform := by
      rw [(t.processor.step_processor _).1, (s.processor.step_processor _).1, h.platform]
    processor := hcpu
    opcode := hopcode }

theorem Alike.step (h : s.Alike t) : s.step.Alike t.step := by
  have hrunning : t.isRunning = s.isRunning := by rw [isRunning, isRunning, h.status]
  have hresult : (t.processor.step t.machine).result = (s.processor.step s.machine).result := by
    rw [h.machine]
    exact (h.processor.step h.platform s.machine).1
  have hlog : (t.processor.step t.machine).log = (s.processor.step s.machine).log := by
    rw [h.machine]
    exact (h.processor.step h.platform s.machine).2.1
  have hran := h.ran
  have hcourse := s.step_course
  generalize s.step = r at hcourse ⊢
  cases hcourse with
  | idle hs =>
    rw [(Course.idle (hrunning.trans hs)).step_eq]
    exact ⟨rfl, rfl, h⟩
  | halted hs hr =>
    have hf : s.machine.isFinished = false := by
      cases hf : s.machine.isFinished with
      | false => rfl
      | true =>
        rw [s.processor.step_eq_of_finished hf] at hr
        cases hr
    rw [(Course.halted (hrunning.trans hs) (hresult.trans hr)).step_eq]
    refine ⟨rfl, ?_, { hran with status := rfl, tone := rfl, fault := rfl }⟩
    dsimp only
    rw [hlog, hran.machine, h.opcode_ran hf]
  | refused hs hr =>
    rw [(Course.refused (hrunning.trans hs) (hresult.trans hr)).step_eq]
    exact ⟨rfl, hlog, hran⟩
  | finished hs hr =>
    rw [(Course.finished (hrunning.trans hs) (hresult.trans hr)).step_eq]
    refine ⟨rfl, ?_, { hran with status := rfl, tone := rfl }⟩
    dsimp only
    rw [hlog, h.steps]
  | ticked hs hr =>
    rw [(Course.ticked (hrunning.trans hs) (hresult.trans hr)).step_eq]
    exact ⟨rfl, hlog, { hran with tone := rfl, steps := congrArg (· + 1) h.steps }⟩

theorem Alike.ticks (h : s.Alike t) (n executed : Nat) (log : Array Record) :
    (ticks n s executed log).Alike (ticks n t executed log) := by
  induction n generalizing s t executed log with
  | zero => exact ⟨rfl, rfl, h⟩
  | succ n ih =>
    have hstep := h.step
    have hblank : t.step.session.machine.awaitingBlank = s.step.session.machine.awaitingBlank :=
      congrArg Machine.awaitingBlank hstep.session.machine
    simp only [Session.ticks]
    rw [hstep.result, hstep.log, hblank]
    cases s.step.result with
    | error e => exact ⟨rfl, rfl, hstep.session⟩
    | ok executing =>
      cases executing with
      | false => exact ⟨rfl, rfl, hstep.session⟩
      | true =>
        dsimp only
        split
        · exact ⟨rfl, rfl, hstep.session⟩
        · exact ih hstep.session _ _

theorem Alike.runFrame (h : s.Alike t) : s.runFrame.Alike t.runFrame := by
  have hticks := h.ticks s.processor.platform.tickRate.toNat 0 #[]
  unfold Session.runFrame
  rw [h.platform]
  dsimp only
  rw [hticks.result]
  split
  · exact hticks
  · have hsession := hticks.session
    refine ⟨rfl, hticks.log, { hsession with machine := ?_ }⟩
    dsimp only
    rw [hsession.machine]

/-! ## Programs that start -/

section Start

variable [Capacity]

/-- A program starts with a whole word at the counter. -/
theorem fetchInBounds_of_boot {p : Platform} {program : List UInt8} {m : Machine}
    (h : Machine.boot p program = .ok m) : m.fetchInBounds = true := by
  obtain ⟨screen, -, rfl⟩ := Machine.boot_eq_ok h
  rfl

/-- A load that is not refused has made a machine. -/
theorem boot_of_load {program : List UInt8} (hload : (s.load program).result = .ok ()) :
    ∃ m, Machine.boot s.processor.platform program = .ok m := by
  cases hm : Machine.boot s.processor.platform program with
  | ok m => exact ⟨m, rfl⟩
  | error e =>
    rw [load_of_boot_error hm] at hload
    cases hload

/-- Sessions on one platform start a program alike, whatever they were before. -/
theorem load_alike (hplatform : t.processor.platform = s.processor.platform)
    (hcpu : s.processor.Alike t.processor) {program : List UInt8}
    (hload : (s.load program).result = .ok ()) :
    (s.load program).Alike (t.load program) := by
  obtain ⟨m, hm⟩ := boot_of_load hload
  have hm' : Machine.boot t.processor.platform program = .ok m := by rw [hplatform, hm]
  rw [load_of_boot hm, load_of_boot hm', hplatform]
  exact ⟨rfl, rfl, ⟨rfl, rfl, rfl, rfl, rfl, hplatform, hcpu, Or.inl (fetchInBounds_of_boot hm)⟩⟩

/-- A word that was left in the processor makes no difference to a program that starts. -/
theorem load_alike_withOpcode {program : List UInt8} (hload : (s.load program).result = .ok ())
    (opcode : Int) :
    (s.load program).session.Alike ((s.load program).session.withOpcode opcode) := by
  obtain ⟨m, hm⟩ := boot_of_load hload
  rw [load_of_boot hm]
  exact ⟨rfl, rfl, rfl, rfl, rfl, rfl, ⟨rfl, fun _ => rfl⟩, Or.inl (fetchInBounds_of_boot hm)⟩

theorem Alike.load (h : s.Alike t) (program : List UInt8) :
    (s.load program).Alike (t.load program) := by
  cases hm : Machine.boot s.processor.platform program with
  | ok m => exact load_alike h.platform h.processor (by rw [load_of_boot hm])
  | error e =>
    have hm' : Machine.boot t.processor.platform program = .error e := by rw [h.platform, hm]
    rw [load_of_boot_error hm, load_of_boot_error hm']
    exact ⟨rfl, rfl, h⟩

/-! ## Operations -/

theorem Alike.reply (h : s.Alike t) (op : Operation) : (s.reply op).Alike (t.reply op) := by
  cases op with
  | load program =>
    have hload := h.load program
    exact ⟨congrArg (Except.map fun _ => Answer.done) hload.result, hload.log, hload.session⟩
  | step =>
    have hstep := h.step
    exact ⟨congrArg (Except.map Answer.executed) hstep.result, hstep.log, hstep.session⟩
  | runFrame =>
    have hframe := h.runFrame
    exact ⟨congrArg (Except.map Answer.count) hframe.result, hframe.log, hframe.session⟩
  | setKeys states =>
    have hkeypad : t.machine.keypad = s.machine.keypad := congrArg Machine.keypad h.machine
    refine ⟨?_, rfl, { h with machine := ?_ }⟩
    · simp only [Session.reply, setKeys, hkeypad]
    · simp only [Session.reply, setKeys, h.machine]
  | clearKeys =>
    refine ⟨rfl, rfl, { h with machine := ?_ }⟩
    simp only [Session.reply, clearKeys, h.machine]
  | pause =>
    have hstatus := h.status
    simp only [Session.reply, pause, hstatus]
    cases s.status with
    | running => exact ⟨rfl, rfl, { h with status := rfl, tone := rfl }⟩
    | paused => exact ⟨rfl, rfl, { h with status := rfl }⟩
    | off => exact ⟨rfl, rfl, h⟩
  | powerOff => exact ⟨rfl, rfl, { h with status := rfl, tone := rfl }⟩

theorem Alike.after (h : s.Alike t) (history : List Operation) :
    (s.after history).Alike (t.after history) := by
  induction history generalizing s t with
  | nil => exact h
  | cons op history ih =>
    have hop := (h.reply op).session
    rw [reply_session, reply_session] at hop
    exact ih hop

end Start

/-! ## What came before -/

/-- The processors have one platform and one stream of random numbers, and tell as much. -/
structure SameKind (s t : Session) : Prop where
  platform : t.processor.platform = s.processor.platform
  stream : t.processor.source.stream = s.processor.source.stream
  tracing : t.processor.tracing = s.processor.tracing

theorem SameKind.step (h : s.SameKind t) : s.SameKind t.step.session := by
  rcases t.step_parts with ⟨hcpu, -⟩ | ⟨hcpu, -⟩
  · exact ⟨by rw [hcpu, h.platform], by rw [hcpu, h.stream], by rw [hcpu, h.tracing]⟩
  · have htracing : (t.processor.step t.machine).processor.tracing = t.processor.tracing := by
      have hcourse := t.processor.step_course t.machine
      generalize t.processor.step t.machine = run at hcourse ⊢
      cases hcourse with
      | finished | outside | unknown | dry | stopped | done => rfl
    obtain ⟨hplatform, hstream⟩ := t.processor.step_processor t.machine
    rw [← hcpu] at htracing hplatform hstream
    exact ⟨hplatform.trans h.platform, hstream.trans h.stream, htracing.trans h.tracing⟩

/-- Nothing that a host does changes of what kind the processor is. -/
theorem after_sameKind [Capacity] (s : Session) (history : List Operation) :
    s.SameKind (s.after history) := by
  refine after_keeps (P := s.SameKind) ?_ ⟨rfl, rfl, rfl⟩ history
  intro t op h
  cases op with
  | load program =>
    simp only [perform, load]
    split
    · exact h
    · exact ⟨h.platform, h.stream, h.tracing⟩
  | step => exact h.step
  | runFrame =>
    exact runFrame_keeps (fun _ => SameKind.step)
      (fun _ h => ⟨h.platform, h.stream, h.tracing⟩) h
  | pause =>
    simp only [perform, pause]
    split
    · exact ⟨h.platform, h.stream, h.tracing⟩
    · exact ⟨h.platform, h.stream, h.tracing⟩
    · exact h
  | setKeys | clearKeys | powerOff => exact ⟨h.platform, h.stream, h.tracing⟩

theorem processor_of_new [Capacity] {cpu : Processor} (hnew : Session.new cpu = .ok s) :
    s.processor = cpu := by
  obtain ⟨m, rfl⟩ := new_parts hnew
  rfl

/-! ## What a host can tell -/

/-- What a host can see of a session. -/
structure View where
  machine : Machine
  status : Status
  tone : Bool
  fault : Option Fault
  steps : Nat

/-- What a host can see of a session. -/
def view (s : Session) : View := ⟨s.machine, s.status, s.tone, s.fault, s.steps⟩

theorem Alike.view (h : s.Alike t) : t.view = s.view := by
  simp only [Session.view, h.machine, h.status, h.tone, h.fault, h.steps]

/-- From now on a host that does the same with both sessions is told the same by every operation,
and sees the same after it. -/
def Indistinguishable [Capacity] (s t : Session) : Prop :=
  ∀ future : List Operation,
    (t.after future).view = (s.after future).view ∧
    ∀ op, ((t.after future).reply op).result = ((s.after future).reply op).result ∧
      ((t.after future).reply op).log = ((s.after future).reply op).log

theorem Alike.indistinguishable [Capacity] (h : s.Alike t) : s.Indistinguishable t := by
  intro future
  have hafter := h.after future
  exact ⟨hafter.view, fun op => ⟨(hafter.reply op).result, (hafter.reply op).log⟩⟩

end Session

/-- A program that is loaded knows nothing of the past. Take two sessions on one platform that tell
as much as each other, and any two histories of them. If a program is then loaded into both, and
they are given the same random numbers from there on, then a host cannot tell them apart any more:
the loads tell the same, and so does all that follows. Nor does a word show that what ran before
has left in the processor. -/
theorem load_isolates [Capacity] {cpu₁ cpu₂ : Processor} (hplatform : cpu₂.platform = cpu₁.platform)
    (htracing : cpu₂.tracing = cpu₁.tracing) {s₁ s₂ : Session} (hnew₁ : Session.new cpu₁ = .ok s₁)
    (hnew₂ : Session.new cpu₂ = .ok s₂) (past₁ past₂ : List Operation) {program : List UInt8}
    (hload : ((s₁.after past₁).load program).result = .ok ())
    (hrandom : ∀ n, (s₂.after past₂).processor.source.ahead n =
      (s₁.after past₁).processor.source.ahead n) :
    ((s₂.after past₂).load program).result = .ok () ∧
      ((s₂.after past₂).load program).log = ((s₁.after past₁).load program).log ∧
      ((s₁.after past₁).load program).session.Indistinguishable
        ((s₂.after past₂).load program).session ∧
      ∀ opcode, ((s₁.after past₁).load program).session.Indistinguishable
        (((s₁.after past₁).load program).session.withOpcode opcode) := by
  have hkind₁ := s₁.after_sameKind past₁
  have hkind₂ := s₂.after_sameKind past₂
  have hsame : (s₂.after past₂).processor.platform = (s₁.after past₁).processor.platform := by
    rw [hkind₁.platform, hkind₂.platform, Session.processor_of_new hnew₁,
      Session.processor_of_new hnew₂, hplatform]
  have htells : (s₂.after past₂).processor.tracing = (s₁.after past₁).processor.tracing := by
    rw [hkind₁.tracing, hkind₂.tracing, Session.processor_of_new hnew₁,
      Session.processor_of_new hnew₂, htracing]
  have halike := Session.load_alike hsame ⟨htells, hrandom⟩ hload
  refine ⟨halike.result.trans hload, halike.log, halike.session.indistinguishable, ?_⟩
  intro opcode
  exact (Session.load_alike_withOpcode hload opcode).indistinguishable

/-- What a host has done with a session before: a program that calls itself until the call stack
is full. -/
def faultyPast : List Operation := [.load [0x22, 0x00], .setKeys [true], .runFrame, .pause]

attribute [local instance] Capacity.least in
theorem load_isolates_faulty :
    Session.new modernProcessor = .ok modernSession ∧
      (modernSession.load [0x00, 0xEE]).result = .ok () ∧
      (modernSession.load [0x00, 0xEE]).session.Indistinguishable
        ((modernSession.after faultyPast).load [0x00, 0xEE]).session := by
  have hnew : Session.new modernProcessor = .ok modernSession := rfl
  have hload : ((modernSession.after []).load [0x00, 0xEE]).result = .ok () := rfl
  have hrandom : ∀ n, (modernSession.after faultyPast).processor.source.ahead n =
      (modernSession.after []).processor.source.ahead n := by
    intro n
    rw [Source.ahead, (modernSession.after_sameKind faultyPast).stream]
    rfl
  obtain ⟨-, -, hsame, -⟩ := load_isolates rfl rfl hnew hnew [] faultyPast hload hrandom
  exact ⟨hnew, hload, hsame⟩

end Chip8
