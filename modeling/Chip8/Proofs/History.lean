/-
  Histories of a session: what a host can do with it, one operation after another. Whatever a
  property of sessions, it holds after a frame if it is kept by each step and by the end of the
  frame (`runFrame_keeps`), and after a history if it is kept by each operation (`after_keeps`). In
  this way every machine that a host can bring about on a configured platform is well formed and
  has the screen of its platform (`configured_wellFormed`).
-/
import Chip8.Proofs.WellFormed
namespace Chip8

/-! ## Platforms -/

namespace Platform

/-- The dimensions of the screen, and the size of a glyph. -/
def geometry (p : Platform) : Int × Int × Int := (p.width, p.height, p.glyphSize)

/-- The platform has a screen that there is memory for, and glyphs that can be pointed at. -/
structure Sized [Capacity] (p : Platform) : Prop where
  width : 0 < p.width
  height : 0 < p.height
  cells : p.width * p.height ≤ Capacity.cells
  glyphs : p.GlyphsFit

theorem geometry_of_mem_presets : ∀ p ∈ presets, p.geometry = (64, 32, 5) := by decide

/-- Neither another speed nor other features change the geometry of a preset. -/
theorem geometry_of_configure {name : String} {tickRate : Option Int}
    {overrides : List (String × Option Bool)} {p : Platform}
    (h : configure name tickRate overrides = .ok p) : p.geometry = (64, 32, 5) := by
  unfold configure at h
  cases hq : find? name with
  | none =>
    rw [hq] at h
    cases h
  | some q =>
    have hgeometry := geometry_of_mem_presets q (List.mem_of_find?_eq_some hq)
    rw [hq] at h
    dsimp only at h
    split at h
    · cases h
    · split at h
      · cases h
        exact hgeometry
      · split at h
        · cases h
        · cases h
          exact hgeometry

/-- With nothing replaced, a platform is the preset of its name. -/
theorem configure_of_find? {name : String} {p : Platform} (h : find? name = some p) :
    configure name none [] = .ok p := by
  have hnames : unknownNames [] = [] := by simp [unknownNames]
  unfold configure
  rw [h]
  dsimp only
  rw [hnames]
  rfl

theorem sized_of_geometry [Capacity] {p : Platform} (h : p.geometry = (64, 32, 5)) : p.Sized := by
  unfold geometry at h
  simp only [Prod.mk.injEq] at h
  obtain ⟨hw, hh, hg⟩ := h
  have hmemory : 0x1000 ≤ Capacity.cells := Capacity.memorySize_le_cells
  exact {
    width := by omega
    height := by omega
    cells := by rw [hw, hh]; omega
    glyphs := ⟨by omega, by omega⟩ }

end Platform

/-! ## New machines -/

namespace Machine

/-- A well-formed machine with the screen of a platform. -/
structure WellFormedOn (p : Platform) (m : Machine) : Prop extends m.WellFormed where
  screenWidth : m.screen.width = p.width
  screenHeight : m.screen.height = p.height

/-- The machine without a program on a platform that has a screen. -/
def fresh (p : Platform) : Machine where
  memory := Memory.initial
  registers := Vector.replicate registerCount 0
  index := 0
  counter := programStart
  stack := CallStack.ofCapacity stackDepth
  delay := 0
  sound := 0
  screen := ⟨p.width, p.height, p.dialect.spritesWrap,
    ⟨Array.replicate (p.width * p.height).toNat 0⟩⟩
  keypad := Array.replicate keyCount false
  programEnd := programStart
  awaitingBlank := false

theorem new_eq_fresh [Capacity] {p : Platform} (hp : p.Sized) : new p = .ok (fresh p) := by
  have hcells := hp.cells
  have hpos : 0 < p.width * p.height := Int.mul_pos hp.width hp.height
  have hcount : cellCount (p.width * p.height) = .ok (p.width * p.height).toNat :=
    cellCount_eq_ok_iff.mpr ⟨by omega, by omega⟩
  unfold new Screen.ofSize Ram.ofSize
  rw [hcount]
  rfl

theorem fresh_wellFormedOn [Capacity] {p : Platform} (hp : p.Sized) : (fresh p).WellFormedOn p where
  stack := ⟨rfl, rfl, Nat.zero_le _⟩
  keypad := rfl
  width := hp.width
  height := hp.height
  filled := by
    have hpos : 0 < p.width * p.height := Int.mul_pos hp.width hp.height
    simp only [Screen.Filled, Screen.area, Ram.size, fresh, Array.size_replicate]
    omega
  binary := fun b hb => Or.inl (Array.eq_of_mem_replicate hb)
  index := by simp only [fresh]; omega
  counter := by simp only [fresh, programStart]; omega
  programEnd := by simp only [fresh, programStart]; omega
  delay := by simp only [fresh]; omega
  sound := by simp only [fresh]; omega
  entries := nofun
  screenWidth := rfl
  screenHeight := rfl

/-- A program that fits can be loaded into a machine with no call open. -/
theorem load_wellFormedOn {p : Platform} {m : Machine} (hm : m.WellFormedOn p)
    (hentries : m.stack.entries = []) {program : List UInt8}
    (hlength : program.length ≤ maxProgramSize) :
    ∃ n, m.load program = .ok n ∧ n.WellFormedOn p ∧
      n.programEnd = programStart + program.length := by
  refine ⟨_, if_neg (by omega), ?_, rfl⟩
  exact { hm with
    programEnd := by
      simp only [programStart, maxProgramSize, memorySize] at hlength ⊢
      omega
    entries := by rw [hentries]; nofun }

/-- The machine of a platform that has a screen, with a program in its memory. -/
def holding (p : Platform) (program : List UInt8) : Machine :=
  { fresh p with
    memory := Memory.initial.overlay programStart program
    programEnd := programStart + program.length }

theorem load_fresh (p : Platform) {program : List UInt8}
    (hlength : program.length ≤ maxProgramSize) :
    (fresh p).load program = .ok (holding p program) := if_neg (by omega)

section Boot

variable [Capacity]

theorem holding_wellFormedOn {p : Platform} (hp : p.Sized) {program : List UInt8}
    (hlength : program.length ≤ maxProgramSize) : (holding p program).WellFormedOn p := by
  obtain ⟨m, hload, hm, -⟩ := load_wellFormedOn (fresh_wellFormedOn hp) rfl hlength
  rw [load_fresh p hlength] at hload
  rw [Except.ok.inj hload]
  exact hm

/-- A new machine of a platform, with a program. -/
def boot (p : Platform) (program : List UInt8) : Except Failure Machine :=
  new p >>= (·.load program)

theorem boot_fits {p : Platform} (hp : p.Sized) {program : List UInt8}
    (hlength : program.length ≤ maxProgramSize) :
    boot p program = .ok (holding p program) := by
  unfold boot
  rw [new_eq_fresh hp]
  exact load_fresh p hlength

theorem boot_tooLong {p : Platform} (hp : p.Sized) {program : List UInt8}
    (hlength : maxProgramSize < program.length) :
    boot p program = .error (.fault (.programTooLong program.length)) := by
  unfold boot
  rw [new_eq_fresh hp]
  exact if_pos hlength

/-- Platforms have a say only in the screen of a machine that holds a program. -/
theorem boot_eq_ok {p : Platform} {program : List UInt8} {m : Machine}
    (h : boot p program = .ok m) :
    ∃ screen, Screen.ofSize p.width p.height p.dialect.spritesWrap = .ok screen ∧
      m = { holding p program with screen := screen } := by
  unfold boot new at h
  cases hscreen : Screen.ofSize p.width p.height p.dialect.spritesWrap with
  | error e =>
    rw [hscreen] at h
    cases h
  | ok screen =>
    rw [hscreen] at h
    simp only [bind, Except.bind, pure, Except.pure, load] at h
    split at h
    · cases h
    · cases h
      exact ⟨screen, rfl, rfl⟩

end Boot

end Machine

/-- A step keeps a machine well formed, with the screen of its platform. -/
theorem Processor.step_wellFormedOn {cpu : Processor} {p : Platform}
    (hcpu : cpu.platform.GlyphsFit) {m : Machine} (hm : m.WellFormedOn p) :
    (cpu.step m).machine.WellFormedOn p := by
  have hframe := (cpu.step_frame m).1
  exact {
    toWellFormed := step_wellFormed hcpu hm.toWellFormed
    screenWidth := (Screen.width_of_frame hframe).trans hm.screenWidth
    screenHeight := (Screen.height_of_frame hframe).trans hm.screenHeight }

/-! ## What the host does -/

/-- An operation of the host on a session. -/
inductive Operation where
  | load (program : List UInt8)
  | step
  | runFrame
  | setKeys (states : List Bool)
  | clearKeys
  | pause
  | powerOff

namespace Session

section Operations

variable [Capacity]

/-- The session after an operation, whether or not the operation was refused. -/
def perform (s : Session) : Operation → Session
  | .load program => (s.load program).session
  | .step => s.step.session
  | .runFrame => s.runFrame.session
  | .setKeys states => (s.setKeys states).2
  | .clearKeys => s.clearKeys
  | .pause => s.pause
  | .powerOff => s.powerOff

/-- The session after a history of operations. -/
def after (s : Session) (history : List Operation) : Session := history.foldl perform s

/-- A new session is off, and nothing has happened in it. -/
theorem new_parts {cpu : Processor} {s : Session} (hnew : Session.new cpu = .ok s) :
    ∃ m : Machine, s = { processor := cpu, machine := m } := by
  unfold Session.new at hnew
  cases hm : Machine.new cpu.platform with
  | error e =>
    rw [hm] at hnew
    cases hnew
  | ok m =>
    rw [hm] at hnew
    exact ⟨m, (Except.ok.inj hnew).symm⟩

theorem load_of_boot {s : Session} {program : List UInt8} {m : Machine}
    (h : Machine.boot s.processor.platform program = .ok m) :
    s.load program = ⟨.ok (), { processor := s.processor, machine := m, status := .running },
      [.loaded program.length s.processor.platform.name]⟩ := by
  unfold Machine.boot at h
  unfold load
  rw [h]

theorem load_of_boot_error {s : Session} {program : List UInt8} {e : Failure}
    (h : Machine.boot s.processor.platform program = .error e) :
    s.load program = ⟨.error e, s, []⟩ := by
  unfold Machine.boot at h
  unfold load
  rw [h]

section Load

variable {s : Session} {program : List UInt8}

theorem load_tooLong (hs : s.processor.platform.Sized) (h : maxProgramSize < program.length) :
    (s.load program).session = s := by
  rw [load_of_boot_error (Machine.boot_tooLong hs h)]

theorem load_fits (hs : s.processor.platform.Sized) (h : program.length ≤ maxProgramSize) :
    ∃ m : Machine, m.WellFormedOn s.processor.platform ∧
      m.programEnd = programStart + program.length ∧
      (s.load program).session =
        { processor := s.processor, machine := m, status := .running } := by
  refine ⟨_, Machine.holding_wellFormedOn hs h, rfl, ?_⟩
  rw [load_of_boot (Machine.boot_fits hs h)]

end Load

end Operations

/-- A step of a session is a step of its machine, or leaves the machine alone. -/
theorem step_parts (s : Session) :
    (s.step.session.processor = s.processor ∧ s.step.session.machine = s.machine) ∨
      (s.step.session.processor = (s.processor.step s.machine).processor ∧
        s.step.session.machine = (s.processor.step s.machine).machine) := by
  have hcourse := s.step_course
  generalize s.step = reply at hcourse ⊢
  cases hcourse with
  | idle => exact Or.inl ⟨rfl, rfl⟩
  | halted | refused | finished | ticked => exact Or.inr ⟨rfl, rfl⟩

/-! ## Frames and histories -/

/-- The session at the end of a frame, with no sprite draw outstanding. -/
def endFrame (s : Session) : Session :=
  { s with machine := { s.machine with awaitingBlank := false } }

section Frames

variable {P : Session → Prop} (hstep : ∀ s, P s → P s.step.session)

include hstep

theorem ticks_keeps {s : Session} (h : P s) (n executed : Nat) (log : Array Record) :
    P (ticks n s executed log).session := by
  induction n generalizing s executed log with
  | zero => exact h
  | succ n ih =>
    have hs := hstep s h
    simp only [ticks]
    split
    · exact hs
    · exact hs
    · split
      · exact hs
      · exact ih hs _ _

theorem runFrame_keeps (hend : ∀ s, P s → P s.endFrame) {s : Session} (h : P s) :
    P s.runFrame.session := by
  have hticks := ticks_keeps hstep h s.processor.platform.tickRate.toNat 0 #[]
  unfold runFrame
  dsimp only
  split
  · exact hticks
  · exact hend _ hticks

/-- What holds after the first step of a frame, if the frame has one, holds after it. -/
theorem runFrame_keeps_step (hend : ∀ s, P s → P s.endFrame) {s : Session}
    (hrate : 1 ≤ s.processor.platform.tickRate) (h : P s.step.session) :
    P s.runFrame.session := by
  obtain ⟨n, hn⟩ : ∃ n, s.processor.platform.tickRate.toNat = n + 1 :=
    ⟨s.processor.platform.tickRate.toNat - 1, by omega⟩
  have hticks : P (ticks (n + 1) s 0 #[]).session := by
    simp only [ticks]
    split
    · exact h
    · exact h
    · split
      · exact h
      · exact ticks_keeps hstep h _ _ _
  unfold runFrame
  dsimp only
  rw [hn]
  split
  · exact hticks
  · exact hend _ hticks

end Frames

theorem after_keeps [Capacity] {P : Session → Prop} (hop : ∀ s op, P s → P (s.perform op))
    {s : Session} (h : P s) (history : List Operation) : P (s.after history) := by
  induction history generalizing s with
  | nil => exact h
  | cons op history ih => exact ih (hop s op h)

/-! ## Well-formed sessions -/

/-- A session on a platform whose machine is well formed, with the screen of the platform. -/
structure WellFormedOn (p : Platform) (s : Session) : Prop where
  platform : s.processor.platform = p
  machine : s.machine.WellFormedOn p

section WellFormedOn

variable [Capacity] {p : Platform} (hp : p.Sized) {s : Session}

include hp

theorem new_wellFormedOn {cpu : Processor} (hcpu : cpu.platform = p) :
    Session.new cpu = .ok { processor := cpu, machine := Machine.fresh p } ∧
      ({ processor := cpu, machine := Machine.fresh p } : Session).WellFormedOn p := by
  refine ⟨?_, hcpu, Machine.fresh_wellFormedOn hp⟩
  unfold Session.new
  rw [hcpu, Machine.new_eq_fresh hp]
  rfl

theorem step_wellFormedOn (hs : s.WellFormedOn p) : s.step.session.WellFormedOn p := by
  rcases s.step_parts with ⟨hcpu, hm⟩ | ⟨hcpu, hm⟩
  · exact ⟨hcpu ▸ hs.platform, hm ▸ hs.machine⟩
  · refine ⟨?_, ?_⟩
    · rw [hcpu, (s.processor.step_processor s.machine).1, hs.platform]
    · rw [hm]
      exact Processor.step_wellFormedOn (by rw [hs.platform]; exact hp.glyphs) hs.machine

theorem perform_wellFormedOn (hs : s.WellFormedOn p) (op : Operation) :
    (s.perform op).WellFormedOn p := by
  have hsized : s.processor.platform.Sized := by rw [hs.platform]; exact hp
  cases op with
  | load program =>
    by_cases h : program.length ≤ maxProgramSize
    · obtain ⟨m, hm, -, hload⟩ := load_fits hsized h
      rw [perform, hload]
      exact ⟨hs.platform, by rw [← hs.platform]; exact hm⟩
    · rw [perform, load_tooLong hsized (by omega)]
      exact hs
  | step => exact step_wellFormedOn hp hs
  | runFrame =>
    exact runFrame_keeps (fun _ => step_wellFormedOn hp)
      (fun _ h => ⟨h.platform, { h.machine with }⟩) hs
  | setKeys states =>
    exact ⟨hs.platform, { hs.machine with
      keypad := by
        simp only [perform, setKeys, Array.size_mapIdx]
        exact hs.machine.keypad }⟩
  | clearKeys =>
    exact ⟨hs.platform, { hs.machine with
      keypad := by
        simp only [perform, clearKeys, Array.size_map]
        exact hs.machine.keypad }⟩
  | pause =>
    simp only [perform, pause]
    split <;> exact ⟨hs.platform, hs.machine⟩
  | powerOff => exact ⟨hs.platform, hs.machine⟩

theorem after_wellFormedOn (hs : s.WellFormedOn p) (history : List Operation) :
    (s.after history).WellFormedOn p :=
  after_keeps (P := WellFormedOn p) (fun _ op h => perform_wellFormedOn hp h op) hs history

end WellFormedOn

end Session

/-! ## Loaded programs -/

/-- The program that an operation starts. One that does not fit is refused. -/
def Operation.program? : Operation → Option (List UInt8)
  | .load program => if program.length ≤ maxProgramSize then some program else none
  | _ => none

/-- The program that was started last. -/
def lastProgram? (history : List Operation) : Option (List UInt8) :=
  (history.filterMap Operation.program?).getLast?

namespace Session

theorem step_programEnd (s : Session) :
    s.step.session.machine.programEnd = s.machine.programEnd := by
  rcases s.step_parts with ⟨-, hm⟩ | ⟨-, hm⟩
  · rw [hm]
  · rw [hm, (s.processor.step_frame s.machine).2]

section ProgramEnd

variable [Capacity]

theorem perform_programEnd {s : Session} (hs : s.processor.platform.Sized) (op : Operation) :
    (s.perform op).machine.programEnd =
      match op.program? with
      | some program => programStart + program.length
      | none => s.machine.programEnd := by
  cases op with
  | load program =>
    by_cases h : program.length ≤ maxProgramSize
    · obtain ⟨m, -, hend, hload⟩ := load_fits hs h
      rw [perform, hload, Operation.program?, if_pos h, hend]
    · rw [perform, load_tooLong hs (by omega), Operation.program?, if_neg h]
  | step => exact s.step_programEnd
  | runFrame =>
    exact runFrame_keeps (P := fun t => t.machine.programEnd = s.machine.programEnd)
      (fun t h => t.step_programEnd.trans h) (fun _ h => h) rfl
  | pause =>
    simp only [perform, pause]
    split <;> rfl
  | setKeys | clearKeys | powerOff => rfl

/-- The program that was started last says where the program ends. -/
theorem after_programEnd {p : Platform} (hp : p.Sized) {s : Session} (hs : s.WellFormedOn p)
    (history : List Operation) :
    (s.after history).machine.programEnd =
      match lastProgram? history with
      | some program => programStart + program.length
      | none => s.machine.programEnd := by
  induction history generalizing s with
  | nil => rfl
  | cons op history ih =>
    have hrest := ih (perform_wellFormedOn hp hs op)
    have hop := perform_programEnd (by rw [hs.platform]; exact hp) op
    unfold lastProgram? at hrest ⊢
    rw [List.filterMap_cons]
    refine hrest.trans ?_
    cases hprogram : op.program? with
    | none =>
      rw [hprogram] at hop
      rw [hop]
    | some program =>
      rw [hprogram] at hop
      dsimp only
      rw [hop, List.getLast?_cons]
      cases (history.filterMap Operation.program?).getLast? <;> rfl

end ProgramEnd

end Session

/-- On a configured platform every machine that a host can bring about is well formed and has the
screen of its platform, and so is every machine that one step makes of such a machine, whatever
platform of the same geometry the step is taken on. -/
theorem configured_wellFormed [Capacity] {name : String} {tickRate : Option Int}
    {overrides : List (String × Option Bool)} {p : Platform}
    (hp : Platform.configure name tickRate overrides = .ok p) :
    (∀ cpu : Processor, cpu.platform = p →
      ∃ s, Session.new cpu = .ok s ∧
        ∀ history, (s.after history).machine.WellFormedOn p) ∧
    (∀ cpu : Processor, cpu.platform.geometry = p.geometry →
      ∀ m : Machine, m.WellFormedOn p → (cpu.step m).machine.WellFormedOn p) := by
  have hgeometry := Platform.geometry_of_configure hp
  have hsized := Platform.sized_of_geometry hgeometry
  refine ⟨?_, ?_⟩
  · intro cpu hcpu
    obtain ⟨hnew, hs⟩ := Session.new_wellFormedOn hsized hcpu
    exact ⟨_, hnew, fun history => (Session.after_wellFormedOn hsized hs history).machine⟩
  · intro cpu hcpu m hm
    have hstep := Platform.sized_of_geometry (hcpu.trans hgeometry)
    exact Processor.step_wellFormedOn hstep.glyphs hm

/-- A processor of the platform "modern", with zeros for random numbers. -/
def modernProcessor : Processor where
  platform := Platform.preset "modern" 30 { spritesWrap := true, jumpAddsFirst := true }
  source := ⟨fun _ => some 0, 0⟩

attribute [local instance] Capacity.least in
theorem configured_wellFormed_modern :
    Platform.configure "modern" none [] = .ok modernProcessor.platform ∧
      (∃ s, Session.new modernProcessor = .ok s ∧
        (s.after [.load [0x22, 0x00], .step, .runFrame, .setKeys [true]]).machine.WellFormedOn
          modernProcessor.platform) ∧
      (modernProcessor.step (Machine.fresh modernProcessor.platform)).machine.WellFormedOn
        modernProcessor.platform := by
  have hp : Platform.configure "modern" none [] = .ok modernProcessor.platform :=
    Platform.configure_of_find? rfl
  obtain ⟨hsession, hstep⟩ := configured_wellFormed hp
  obtain ⟨s, hnew, hs⟩ := hsession modernProcessor rfl
  have hfresh := Machine.fresh_wellFormedOn
    (Platform.sized_of_geometry (Platform.geometry_of_configure hp))
  exact ⟨hp, ⟨s, hnew, hs _⟩, hstep modernProcessor rfl _ hfresh⟩

end Chip8
