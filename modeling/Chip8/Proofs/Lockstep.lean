/-
  Two steps side by side. Two processors are alike if they tell as much as each other and are given
  the same random numbers from now on, whatever they were given before. On machines that are equal
  but for two flags, and with dialects that agree on the instruction, alike processors take the
  same step and stay alike (`step_recast`). The word that a processor remembers from before plays
  no part in a step.
-/
import Chip8.Proofs.Features
import Chip8.Proofs.WellFormed
namespace Chip8

namespace Source

/-- The number that a source gives after some more have been taken. -/
def ahead (s : Source) (n : Nat) : Option Int := s.stream (s.taken + n)

theorem next_eq (s : Source) :
    s.next = match s.ahead 0 with
      | some number => .ok (number, { s with taken := s.taken + 1 })
      | none => .error (.misuse .sourceDry) := rfl

theorem ahead_next {s t : Source} {number : Int} (h : s.next = .ok (number, t)) (n : Nat) :
    t.ahead n = s.ahead (n + 1) := by
  rw [next_eq] at h
  split at h
  · cases h
    simp only [ahead, Nat.add_assoc, Nat.add_comm 1 n]
  · cases h

end Source

namespace Processor

/-- The processors tell as much as each other, and are given the same random numbers from now
on. -/
structure Alike (cpu other : Processor) : Prop where
  tracing : other.tracing = cpu.tracing
  ahead : ∀ n, other.source.ahead n = cpu.source.ahead n

theorem Alike.refl (cpu : Processor) : cpu.Alike cpu := ⟨rfl, fun _ => rfl⟩

theorem Alike.symm {cpu other : Processor} (h : cpu.Alike other) : other.Alike cpu :=
  ⟨h.tracing.symm, fun n => (h.ahead n).symm⟩

section Alike

variable {cpu other : Processor} (h : cpu.Alike other) {i : Instruction}

include h

theorem Alike.numberFor_error {e : Failure} (hn : cpu.numberFor i = .error e) :
    other.numberFor i = .error e := by
  unfold numberFor at hn ⊢
  rw [Source.next_eq, h.ahead 0]
  rw [Source.next_eq] at hn
  cases hr : i.isRandom with
  | false =>
    rw [hr] at hn
    cases hn
  | true =>
    rw [hr] at hn
    cases hs : cpu.source.ahead 0 with
    | none =>
      rw [hs] at hn
      exact hn
    | some number =>
      rw [hs] at hn
      cases hn

theorem Alike.numberFor_ok {number : Int} {source : Source}
    (hn : cpu.numberFor i = .ok (number, source)) :
    ∃ t, other.numberFor i = .ok (number, t) ∧ ∀ n, t.ahead n = source.ahead n := by
  unfold numberFor at hn ⊢
  cases hr : i.isRandom with
  | false =>
    rw [hr] at hn
    cases hn
    exact ⟨_, rfl, h.ahead⟩
  | true =>
    rw [hr, if_pos rfl] at hn
    rw [if_pos rfl]
    have hnext : ∃ t, other.source.next = .ok (number, t) := by
      rw [Source.next_eq] at hn ⊢
      rw [h.ahead 0]
      split at hn
      · cases hn
        exact ⟨_, rfl⟩
      · cases hn
    obtain ⟨t, ht⟩ := hnext
    refine ⟨t, ht, fun n => ?_⟩
    rw [Source.ahead_next ht, Source.ahead_next hn, h.ahead]

end Alike

/-- Two steps came to the same but for the flags of the machine. -/
structure Recast (run other : Run (Option Bool)) (wraps blank : Bool) : Prop where
  result : other.result = run.result
  log : other.log = run.log
  machine : other.machine = run.machine.recast wraps blank
  alike : run.processor.Alike other.processor

/-- Alike processors whose dialects agree on the instruction take the same step. If the machines
did not differ in the wish to end the frame, nor the dialects, then they still do not. -/
theorem step_recast {cpu other : Processor} (h : cpu.Alike other)
    (hglyph : other.platform.glyphSize = cpu.platform.glyphSize) {m : Machine} {wraps : Bool}
    (hagree : ∀ i : Instruction, m.fetched? = some i.word →
      i.AgreedBy cpu.platform.dialect other.platform.dialect ∧
        (.spritesWrap ∈ i.features → wraps = m.screen.wraps)) (blank : Bool) :
    ∃ later, Recast (cpu.step m) (other.step (m.recast wraps blank)) wraps later ∧
      (blank = m.awaitingBlank →
        (∀ i : Instruction, m.fetched? = some i.word →
          i.endsFrame other.platform.dialect = i.endsFrame cpu.platform.dialect) →
        later = (cpu.step m).machine.awaitingBlank) := by
  have hcourse := cpu.step_course m
  generalize cpu.step m = run at hcourse ⊢
  have fetches : ∀ {i : Instruction}, m.isFinished = false → m.fetchInBounds = true →
      Instruction.ofWord? m.word = some i → m.fetched? = some i.word := by
    intro i hf hb hi
    rw [Machine.fetched?, hf, Machine.word?, hb, (Instruction.ofWord?_eq_some_iff m.word_lt).mp hi]
    rfl
  have traces : ∀ {i : Instruction}, m.fetched? = some i.word →
      other.traceOf m.word i (m.recast wraps blank) = cpu.traceOf m.word i m := by
    intro i hi
    simp only [traceOf, h.tracing, Instruction.mnemonic_eq (hagree i hi).1]
    rfl
  cases hcourse with
  | finished hf =>
    rw [(Course.finished (m := m.recast wraps blank) hf : other.Course _ _).step_eq]
    exact ⟨blank, ⟨rfl, rfl, rfl, h⟩, fun hblank _ => hblank⟩
  | outside hf hb =>
    rw [(Course.outside (m := m.recast wraps blank) hf hb : other.Course _ _).step_eq]
    exact ⟨blank, ⟨rfl, rfl, rfl, h⟩, fun hblank _ => hblank⟩
  | unknown hf hb hi =>
    rw [(Course.unknown (m := m.recast wraps blank) hf hb hi : other.Course _ _).step_eq]
    exact ⟨blank, ⟨rfl, rfl, rfl, h.1, h.2⟩, fun hblank _ => hblank⟩
  | dry hf hb hi hn =>
    rw [(Course.dry (m := m.recast wraps blank) hf hb hi (h.numberFor_error hn) :
      other.Course _ _).step_eq]
    exact ⟨blank, ⟨rfl, traces (fetches hf hb hi), rfl, h.1, h.2⟩, fun hblank _ => hblank⟩
  | @stopped hf hb i hi number source hn e he =>
    have hi' := fetches hf hb hi
    obtain ⟨t, hn', hahead⟩ := h.numberFor_ok hn
    have heffect :=
      Instruction.effect_recast hglyph (hagree i hi').1 number m (hagree i hi').2 blank
    have he' : (i.effect other.platform number (m.recast wraps blank)).failure = some e := by
      rw [heffect, he]
    rw [(Course.stopped (m := m.recast wraps blank) hf hb hi hn' he' : other.Course _ _).step_eq]
    refine ⟨_, ⟨rfl, traces hi', congrArg Outcome.machine heffect, h.tracing, hahead⟩, ?_⟩
    intro hblank hends
    rw [hends i hi', hblank]
    exact (Instruction.effect_awaitingBlank cpu.platform number i m).symm
  | @done hf hb i hi number source hn he =>
    have hi' := fetches hf hb hi
    obtain ⟨t, hn', hahead⟩ := h.numberFor_ok hn
    have heffect :=
      Instruction.effect_recast hglyph (hagree i hi').1 number m (hagree i hi').2 blank
    have hmachine := congrArg Outcome.machine heffect
    have he' : (i.effect other.platform number (m.recast wraps blank)).failure = none := by
      rw [heffect, he]
    rw [(Course.done (m := m.recast wraps blank) hf hb hi hn' he' : other.Course _ _).step_eq]
    refine ⟨_, ⟨?_, traces hi', congrArg Machine.countDown hmachine, h.tracing, hahead⟩, ?_⟩
    · rw [hmachine]
      rfl
    · intro hblank hends
      rw [hends i hi', hblank]
      exact (Instruction.effect_awaitingBlank cpu.platform number i m).symm

/-- Alike processors of one platform make the same of a machine. -/
theorem Alike.step {cpu other : Processor} (h : cpu.Alike other)
    (hplatform : other.platform = cpu.platform) (m : Machine) :
    (other.step m).result = (cpu.step m).result ∧ (other.step m).log = (cpu.step m).log ∧
      (other.step m).machine = (cpu.step m).machine ∧
      (cpu.step m).processor.Alike (other.step m).processor := by
  have hagree : ∀ i : Instruction, m.fetched? = some i.word →
      i.AgreedBy cpu.platform.dialect other.platform.dialect ∧
        (.spritesWrap ∈ i.features → m.screen.wraps = m.screen.wraps) := by
    intro i _
    rw [hplatform]
    exact ⟨fun _ _ _ => rfl, fun _ => rfl⟩
  obtain ⟨later, hrun, hlater⟩ :=
    step_recast h (congrArg Platform.glyphSize hplatform) hagree m.awaitingBlank
  have hblank := hlater rfl fun i _ => by rw [hplatform]
  have hwraps : (cpu.step m).machine.screen.wraps = m.screen.wraps :=
    congrArg Screen.Frame.wraps (cpu.step_frame m).1
  have hrecast : (cpu.step m).machine.recast m.screen.wraps later = (cpu.step m).machine := by
    rw [hblank, ← hwraps]
    rfl
  exact ⟨hrun.result, hrun.log, hrun.machine.trans hrecast, hrun.alike⟩

/-- The words that two processors have left from before are gone after a step that fetches one. -/
theorem step_opcode_eq {cpu other : Processor} {m : Machine}
    (h : m.fetchInBounds = true ∨ other.opcode = cpu.opcode) (hf : m.isFinished = false) :
    (other.step m).processor.opcode = (cpu.step m).processor.opcode := by
  rw [step_opcode, step_opcode]
  cases hw : m.fetched? with
  | some w => rfl
  | none =>
    rcases Machine.fetched?_eq_none hw with hfinished | hout
    · rw [hf] at hfinished
      cases hfinished
    · rcases h with hin | hopcode
      · rw [hout] at hin
        cases hin
      · exact hopcode

end Processor

end Chip8
