/-
  Well-formed machines: the index register has sixteen bits, the timers hold bytes, the pixels are
  0 or 1, the counter has not run further than an indexed jump can take it, and the entries of the
  call stack are addresses of calls inside the program. That memory and registers have their sizes
  and hold bytes is in their types. A step keeps a machine well formed (`step_wellFormed`), on any
  platform whose glyphs all lie where sixteen bits can point.

  The bounds of the counter and of the entries depend on each other: a call is only fetched from
  inside the program and the memory, so its address may go on the stack, and a return goes two
  past such an address.
-/
import Chip8.Proofs.Course
namespace Chip8

/-- The glyph of every byte lies where an index register of sixteen bits can point. -/
def Platform.GlyphsFit (p : Platform) : Prop := 0 ≤ p.glyphSize ∧ p.glyphSize ≤ 257

namespace Machine

/-- What holds of every machine that a host can bring about. -/
structure WellFormed (m : Machine) : Prop extends m.Shaped where
  binary : m.screen.Binary
  index : 0 ≤ m.index ∧ m.index ≤ 0xFFFF
  counter : 0 ≤ m.counter ∧ m.counter ≤ 0x10FE
  programEnd : 0x200 ≤ m.programEnd ∧ m.programEnd ≤ 0x1000
  delay : 0 ≤ m.delay ∧ m.delay ≤ 255
  sound : 0 ≤ m.sound ∧ m.sound ≤ 255
  entries : ∀ e ∈ m.stack.entries, 0 ≤ e ∧ e < m.programEnd ∧ e ≤ 0xFFE

theorem byte_bounds (b : UInt8) : 0 ≤ (b.toNat : Int) ∧ (b.toNat : Int) ≤ 255 := by
  have := b.toNat_lt
  omega

theorem shaped_of_parts {m n : Machine} (hm : m.Shaped) (hstack : n.stack.Sound)
    (hkeypad : n.keypad = m.keypad) (hframe : n.screen.frame = m.screen.frame) : n.Shaped := by
  have hwidth : 0 < n.screen.width := by
    rw [Screen.width_of_frame hframe]
    exact hm.width
  have hheight : 0 < n.screen.height := by
    rw [Screen.height_of_frame hframe]
    exact hm.height
  exact ⟨hstack, by rw [hkeypad, hm.keypad], hwidth, hheight,
    Screen.filled_of_frame hframe hm.filled⟩

end Machine

namespace Instruction

open Machine

variable {m : Machine}

theorem indexAfter_bounds {p : Platform} (hp : p.GlyphsFit) (hm : m.WellFormed)
    (i : Instruction) : 0 ≤ i.indexAfter p m ∧ i.indexAfter p m ≤ 0xFFFF := by
  cases i with
  | setIndex target =>
    have h : target.val < 0x1000 := target.isLt
    simp only [indexAfter]
    omega
  | addIndex x =>
    simp only [indexAfter]
    omega
  | pointGlyph x =>
    obtain ⟨h0, h255⟩ := byte_bounds (m.reg x)
    have hnonneg := Int.mul_nonneg hp.1 h0
    have hle : p.glyphSize * (m.reg x).toNat ≤ 257 * 255 :=
      Int.mul_le_mul hp.2 h255 h0 (by omega)
    simp only [indexAfter, fontLocation]
    omega
  | storeRegisters x | loadRegisters x =>
    have h := hm.index
    simp only [indexAfter, moveIndex_eq]
    split <;> omega
  | _ => exact hm.index

theorem delayAfter_bounds (hd : 0 ≤ m.delay ∧ m.delay ≤ 255) (i : Instruction) :
    0 ≤ i.delayAfter m ∧ i.delayAfter m ≤ 255 := by
  cases i with
  | setDelay x => exact byte_bounds _
  | _ => exact hd

theorem soundAfter_bounds (hs : 0 ≤ m.sound ∧ m.sound ≤ 255) (i : Instruction) :
    0 ≤ i.soundAfter m ∧ i.soundAfter m ≤ 255 := by
  cases i with
  | setSound x => exact byte_bounds _
  | _ => exact hs

/-- An instruction leaves the parts of the machine in their sizes. -/
theorem effect_shaped (hm : m.Shaped) (p : Platform) (number : Int) (i : Instruction) :
    (i.effect p number m).machine.Shaped := by
  have hfoot := effect_footprint p number i m
  cases he : (i.effect p number m).failure with
  | some e =>
    rw [machine_of_failure hm he]
    exact hm
  | none =>
    refine shaped_of_parts hm ?_ hfoot.keypad hfoot.frame
    rcases effect_stack he with ⟨-, hs⟩ | ⟨-, hpush⟩ | ⟨-, hpop⟩
    · rw [hs]
      exact hm.stack
    · exact hm.stack.push hpush
    · exact hm.stack.pop hpop

/-- From a counter at which a word lies, only an indexed jump goes far. -/
theorem counterAfter_bounds (p : Platform) (h0 : 0 ≤ m.counter) (hle : m.counter ≤ 0xFFE)
    {i : Instruction} (hi : i ≠ .ret) :
    0 ≤ i.counterAfter p m ∧ i.counterAfter p m ≤ 0x10FE := by
  cases i with
  | ret => exact absurd rfl hi
  | jump target | call target =>
    have h : target.val < 0x1000 := target.isLt
    simp only [counterAfter]
    omega
  | jumpOffset target =>
    have h : target.val < 0x1000 := target.isLt
    have hb := byte_bounds (m.reg jumpRegister)
    simp only [counterAfter]
    split <;> omega
  | waitKey x =>
    simp only [counterAfter]
    split <;> omega
  | _ =>
    simp only [counterAfter]
    split <;> omega

/-- An instruction that succeeds keeps a machine well formed, if it was fetched from inside the
program and the memory. -/
theorem effect_wellFormed {p : Platform} (hp : p.GlyphsFit) (hm : m.WellFormed)
    (hf : m.counter < m.programEnd) (hb : m.counter ≤ 0xFFE) {number : Int} {i : Instruction}
    (he : (i.effect p number m).failure = none) : (i.effect p number m).machine.WellFormed := by
  have hfoot := effect_footprint p number i m
  have hcounter0 := hm.counter.1
  suffices hstack : (∀ e ∈ (i.effect p number m).machine.stack.entries,
        0 ≤ e ∧ e < m.programEnd ∧ e ≤ 0xFFE) ∧
      0 ≤ i.counterAfter p m ∧ i.counterAfter p m ≤ 0x10FE by
    obtain ⟨hentries, hcounter⟩ := hstack
    exact {
      toShaped := effect_shaped hm.toShaped p number i
      binary := hfoot.binary hm.binary
      index := by rw [hfoot.index]; exact indexAfter_bounds hp hm i
      counter := by rw [hfoot.counter he]; exact hcounter
      programEnd := by rw [hfoot.programEnd]; exact hm.programEnd
      delay := by rw [hfoot.delay]; exact delayAfter_bounds hm.delay i
      sound := by rw [hfoot.sound]; exact soundAfter_bounds hm.sound i
      entries := by rw [hfoot.programEnd]; exact hentries }
  rcases effect_stack he with ⟨hi, hs⟩ | ⟨hi, hpush⟩ | ⟨rfl, hpop⟩
  · rw [hs]
    exact ⟨hm.entries, counterAfter_bounds p hcounter0 hb hi⟩
  · refine ⟨?_, counterAfter_bounds p hcounter0 hb hi⟩
    rw [hm.stack.entries_push hpush]
    intro e hmem
    rcases List.mem_append.mp hmem with hmem | hmem
    · exact hm.entries e hmem
    · rw [List.mem_singleton.mp hmem]
      exact ⟨hcounter0, hf, hb⟩
  · have hentries := hm.stack.entries_pop hpop
    have htop := hm.entries m.stack.top (by
      rw [hentries]
      exact List.mem_append_right _ (List.mem_singleton.mpr rfl))
    refine ⟨?_, ?_⟩
    · intro e hmem
      exact hm.entries e (by rw [hentries]; exact List.mem_append_left _ hmem)
    · simp only [counterAfter]
      omega

end Instruction

namespace Machine

theorem advance_wellFormed {m : Machine} (hm : m.WellFormed) (hb : m.counter ≤ 0xFFE) :
    m.advance.WellFormed := by
  have h := hm.counter
  exact { hm with counter := by simp only [advance]; omega }

theorem countDown_wellFormed {m : Machine} (hm : m.WellFormed) : m.countDown.WellFormed := by
  have hd := hm.delay
  have hs := hm.sound
  exact { hm with
    delay := by simp only [countDown]; split <;> omega
    sound := by simp only [countDown]; split <;> omega }

end Machine

namespace Processor

open Machine

theorem step_wellFormed {cpu : Processor} (hcpu : cpu.platform.GlyphsFit) {m : Machine}
    (hm : m.WellFormed) : (cpu.step m).machine.WellFormed := by
  have hcourse := cpu.step_course m
  generalize cpu.step m = run at hcourse ⊢
  have inside : m.isFinished = false → m.counter < m.programEnd := by
    intro hf
    have h := mt isFinished_iff.mpr (by rw [hf]; exact Bool.false_ne_true)
    omega
  cases hcourse with
  | finished | outside | dry => exact hm
  | unknown hf hb =>
    exact countDown_wellFormed (advance_wellFormed hm (fetchInBounds_iff.mp hb).2)
  | stopped hf hb hi hn he =>
    rw [Instruction.machine_of_failure hm.toShaped he]
    exact hm
  | done hf hb hi hn he =>
    exact countDown_wellFormed
      (Instruction.effect_wellFormed hcpu hm (inside hf) (fetchInBounds_iff.mp hb).2 he)

/-- A step keeps the frame of the screen and the end of the program. -/
theorem step_frame (cpu : Processor) (m : Machine) :
    (cpu.step m).machine.screen.frame = m.screen.frame ∧
      (cpu.step m).machine.programEnd = m.programEnd := by
  have hcourse := cpu.step_course m
  generalize cpu.step m = run at hcourse ⊢
  cases hcourse with
  | finished | outside | dry | unknown => exact ⟨rfl, rfl⟩
  | stopped hf hb hi hn he | done hf hb hi hn he =>
    exact ⟨(Instruction.effect_footprint _ _ _ m).frame,
      (Instruction.effect_footprint _ _ _ m).programEnd⟩

/-- A step keeps the platform and the stream of random numbers. -/
theorem step_processor (cpu : Processor) (m : Machine) :
    (cpu.step m).processor.platform = cpu.platform ∧
      (cpu.step m).processor.source.stream = cpu.source.stream := by
  have hcourse := cpu.step_course m
  generalize cpu.step m = run at hcourse ⊢
  have kept : ∀ {i number source}, cpu.numberFor i = .ok (number, source) →
      source.stream = cpu.source.stream := by
    intro i number source hn
    unfold numberFor at hn
    split at hn
    · exact Source.stream_next hn
    · cases hn
      rfl
  cases hcourse with
  | finished | outside | dry | unknown => exact ⟨rfl, rfl⟩
  | stopped hf hb hi hn he | done hf hb hi hn he => exact ⟨rfl, kept hn⟩

end Processor

end Chip8
