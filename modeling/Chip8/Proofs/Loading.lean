/-
  Loading a program. Whether a platform can have a machine does not depend on the program, so a
  load into a session fails only for a program that is too long, and then leaves the session as it
  was. The machine of any other program is new in every part, and its memory is the font, zeros, the
  program and zeros again (`toList_overlay_program`). The limit on programs is just what the check
  of the last location allows (`writeBlock_eq`), for a program without bytes too, and a bank of
  bytes takes the program in the same way (`Memory.toRam_writeBlock`).
-/
import Chip8.Proofs.Bank
import Chip8.Proofs.Isolation
namespace Chip8

/-! ## Memory -/

namespace Memory

theorem toList_overlay {m : Memory} {start : Nat} {block : List UInt8}
    (h : start + block.length ≤ memorySize) :
    (m.overlay start block).toList =
      m.toList.take start ++ block ++ m.toList.drop (start + block.length) :=
  Ram.toList_overwrite (by rw [m.size_toArray]; exact h)

theorem toList_initial : initial.toList = font ++ List.replicate (memorySize - font.length) 0 := by
  have hfits : fontLocation + font.length ≤ memorySize := by decide
  rw [initial, toList_overlay hfits, Vector.toList_replicate, List.drop_replicate]
  rfl

/-- The font at the bottom, then zeros up to the program, and zeros from its end. -/
theorem toList_overlay_program {program : List UInt8} (h : program.length ≤ maxProgramSize) :
    (initial.overlay programStart program).toList =
      font ++ List.replicate (programStart - font.length) 0 ++ program ++
        List.replicate (maxProgramSize - program.length) 0 := by
  have hfont : font.length ≤ programStart := by decide
  have hfits : programStart + program.length ≤ memorySize := by
    simp only [programStart, memorySize, maxProgramSize] at h ⊢
    omega
  have hbelow : (font ++ List.replicate (memorySize - font.length) (0 : UInt8)).take programStart =
      font ++ List.replicate (programStart - font.length) 0 := by
    rw [List.take_append, List.take_of_length_le hfont, List.take_replicate]
    rfl
  have habove : (font ++ List.replicate (memorySize - font.length) (0 : UInt8)).drop
      (programStart + program.length) = List.replicate (maxProgramSize - program.length) 0 := by
    have hcount : memorySize - font.length - (programStart + program.length - font.length) =
        maxProgramSize - program.length := by
      simp only [memorySize, programStart, maxProgramSize] at hfont ⊢
      omega
    rw [List.drop_append, List.drop_of_length_le (by omega), List.drop_replicate, hcount]
    rfl
  rw [toList_overlay hfits, toList_initial, hbelow, habove]

/-- A program can be written from its start onward exactly if it is not longer than the limit. -/
theorem writeBlock_eq (m : Memory) (program : List UInt8) :
    m.writeBlock programStart program =
      if program.length ≤ maxProgramSize then .ok (m.overlay programStart program)
      else .error (.fault (.memoryOverflow (programStart + program.length - 1))) := by
  have hsize : m.toRam.size = memorySize := m.size_toArray
  rw [writeBlock, Ram.check, hsize]
  by_cases h : program.length ≤ maxProgramSize
  · rw [if_pos h, if_pos (by simp only [programStart, memorySize, maxProgramSize] at h ⊢; omega)]
    rfl
  · rw [if_neg h, if_neg (by simp only [programStart, memorySize, maxProgramSize] at h ⊢; omega)]
    rfl

end Memory

/-! ## Machines -/

namespace Machine

variable {p : Platform} {program : List UInt8}

/-- A machine without a program is new in every part. -/
theorem eq_fresh_of_new [Capacity] {m : Machine} (h : new p = .ok m) : m = fresh p := by
  unfold new Screen.ofSize Ram.ofSize at h
  cases hcells : cellCount (p.width * p.height) with
  | error e =>
    rw [hcells] at h
    cases h
  | ok n =>
    have hn : (p.width * p.height).toNat = n := by
      have hsize := (cellCount_eq_ok_iff.mp hcells).1
      omega
    rw [hcells] at h
    rw [fresh, hn]
    exact (Except.ok.inj h).symm

/-- What a machine with a program holds before its first step. -/
structure Loaded (p : Platform) (program : List UInt8) (m : Machine) : Prop where
  memory : m.memory.toList = font ++ List.replicate 0x1B0 0 ++ program ++
    List.replicate (3584 - program.length) 0
  programEnd : m.programEnd = 0x200 + program.length
  counter : m.counter = 0x200
  registers : ∀ x, m.reg x = 0
  index : m.index = 0
  stack : m.stack = ⟨16, Array.replicate 16 0, 0⟩
  delay : m.delay = 0
  sound : m.sound = 0
  width : m.screen.width = p.width
  height : m.screen.height = p.height
  wraps : m.screen.wraps = p.dialect.spritesWrap
  pixels : m.screen.pixels = List.replicate (p.width * p.height).toNat 0
  keypad : m.keypad = Array.replicate 16 false
  awaitingBlank : m.awaitingBlank = false

theorem holding_loaded (p : Platform) (h : program.length ≤ maxProgramSize) :
    (holding p program).Loaded p program where
  memory := Memory.toList_overlay_program h
  programEnd := rfl
  counter := rfl
  registers x := Vector.getElem_replicate x.isLt
  index := rfl
  stack := rfl
  delay := rfl
  sound := rfl
  width := rfl
  height := rfl
  wraps := rfl
  pixels := Array.toList_replicate
  keypad := rfl
  awaitingBlank := rfl

end Machine

/-! ## Sessions -/

namespace Session

variable {cpu : Processor} {s₀ : Session} {program : List UInt8}

/-- Whatever has been done with a session, another machine of its platform can be made. -/
theorem new_after [Capacity] (hnew : Session.new cpu = .ok s₀) (history : List Operation) :
    Machine.new (s₀.after history).processor.platform = .ok (Machine.fresh cpu.platform) := by
  have hplatform : (s₀.after history).processor.platform = cpu.platform := by
    rw [(s₀.after_sameKind history).platform, processor_of_new hnew]
  rw [hplatform]
  unfold Session.new at hnew
  cases hm : Machine.new cpu.platform with
  | error e =>
    rw [hm] at hnew
    cases hnew
  | ok m => rw [Machine.eq_fresh_of_new hm]

end Session

/-- A load is all or nothing. Whatever a host has done with a session, a program that is longer than
3584 bytes is refused, and the session stays as it was, its processor included. Any other program is
started: the session runs, without a tone, a fault or a step, on a machine that is new in every part
and holds the program, just as the checked write to its memory would put it there, and the write to
the bank of bytes that the memory is. -/
theorem load_all_or_nothing [Capacity] {cpu : Processor} {s₀ : Session}
    (hnew : Session.new cpu = .ok s₀)
    (history : List Operation) (program : List UInt8) :
    (3584 < program.length →
      (s₀.after history).load program =
        ⟨.error (.fault (.programTooLong program.length)), s₀.after history, []⟩) ∧
    (program.length ≤ 3584 →
      ∃ m : Machine, m.Loaded cpu.platform program ∧
        Memory.initial.writeBlock 0x200 program = .ok m.memory ∧
        Memory.initial.toRam.writeBlock 0x200 program = .ok m.memory.toRam ∧
        (s₀.after history).load program =
          ⟨.ok (), {
              processor := (s₀.after history).processor
              machine := m
              status := .running
              tone := false
              fault := none
              steps := 0 },
            [.loaded program.length cpu.platform.name]⟩) := by
  have hmachine := Session.new_after hnew history
  constructor
  · intro hlong
    refine Session.load_of_boot_error ?_
    rw [Machine.boot, hmachine]
    exact if_pos hlong
  · intro hfits
    have hboot : Machine.boot (s₀.after history).processor.platform program =
        .ok (Machine.holding cpu.platform program) := by
      rw [Machine.boot, hmachine]
      exact Machine.load_fresh cpu.platform hfits
    have hname : (s₀.after history).processor.platform.name = cpu.platform.name := by
      rw [(s₀.after_sameKind history).platform, Session.processor_of_new hnew]
    have hwritten : Memory.initial.writeBlock programStart program =
        .ok (Memory.initial.overlay programStart program) :=
      (Memory.initial.writeBlock_eq program).trans (if_pos hfits)
    refine ⟨_, Machine.holding_loaded cpu.platform hfits, hwritten, ?_, ?_⟩
    · exact (Memory.initial.toRam_writeBlock programStart program).symm.trans
        (congrArg (Except.map Memory.toRam) hwritten)
    · rw [Session.load_of_boot hboot, hname]

attribute [local instance] Capacity.least in
theorem load_all_or_nothing_running :
    Session.new modernProcessor = .ok modernSession ∧
      (modernSession.after [.load [0x12, 0x00], .step, .step]).status = .running ∧
      ((modernSession.after [.load [0x12, 0x00], .step, .step]).load
        (List.replicate 3585 0)).session.steps = 2 ∧
      ((modernSession.after [.load [0x12, 0x00], .step, .step]).load []).session.machine.Loaded
        modernProcessor.platform [] := by
  have hnew : Session.new modernProcessor = .ok modernSession := rfl
  have hrun : (modernSession.after [.load [0x12, 0x00], .step, .step]).status = .running ∧
      (modernSession.after [.load [0x12, 0x00], .step, .step]).steps = 2 := by decide +kernel
  obtain ⟨hstatus, hsteps⟩ := hrun
  have hload := load_all_or_nothing hnew [.load [0x12, 0x00], .step, .step]
  obtain ⟨hrefused, -⟩ := hload (List.replicate 3585 0)
  obtain ⟨-, hstarted⟩ := hload []
  refine ⟨hnew, hstatus, ?_, ?_⟩
  · rw [hrefused (by rw [List.length_replicate]; decide)]
    exact hsteps
  · obtain ⟨m, hm, -, -, hsession⟩ := hstarted (by decide)
    rw [hsession]
    exact hm

end Chip8
