/-
  A feature bears on the words that it governs and on nothing else. Take two platforms of one
  geometry, whose dialects may differ in any way, and run a program on both with the same random
  numbers and the same keys. As long as no word is fetched that a differing feature governs, the
  two runs fetch the same words and come to the same, and their machines differ in nothing but the
  flag that says what happens at the edges of the screen.
-/
import Chip8.Proofs.Computer
import Chip8.Proofs.History
import Chip8.Proofs.Lockstep
namespace Chip8

namespace Platform

/-- The platforms differ on a feature that governs the word. -/
def DifferOn (p q : Platform) (word : Nat) : Prop :=
  ∃ f : Feature, p.dialect.get f ≠ q.dialect.get f ∧ f.Governs word

instance (p q : Platform) (word : Nat) : Decidable (p.DifferOn q word) :=
  decidable_of_iff (∃ f ∈ Feature.all, p.dialect.get f ≠ q.dialect.get f ∧ f.Governs word)
    ⟨fun ⟨f, _, h⟩ => ⟨f, h⟩, fun ⟨f, h⟩ => ⟨f, f.mem_all, h⟩⟩

/-- On a word where the platforms do not differ they agree on every feature of its instruction. -/
theorem get_eq_of_not_differOn {p q : Platform} {i : Instruction} (h : ¬ p.DifferOn q i.word)
    {f : Feature} (hf : f ∈ i.features) : q.dialect.get f = p.dialect.get f :=
  Decidable.byContradiction fun hne =>
    h ⟨f, fun heq => hne heq.symm, Instruction.governs_of_mem_features hf⟩

end Platform

theorem Instruction.endsFrame_eq {d e : Dialect} {i : Instruction}
    (h : ∀ f ∈ i.features, e.get f = d.get f) : i.endsFrame e = i.endsFrame d := by
  cases i with
  | draw x y rows => exact h .drawEndsFrame List.mem_cons_self
  | _ => rfl

/-! ## Machines -/

theorem Screen.wraps_of_ofSize [Capacity] {width height : Int} {wraps : Bool} {s : Screen}
    (h : ofSize width height wraps = .ok s) : s.wraps = wraps := by
  unfold ofSize at h
  cases hbank : Ram.ofSize (width * height) with
  | error e =>
    rw [hbank] at h
    cases h
  | ok bank =>
    rw [hbank] at h
    cases h
    rfl

namespace Machine

/-- The machine with another way with the edges of the screen. -/
def withWraps (m : Machine) (wraps : Bool) : Machine :=
  { m with screen := { m.screen with wraps := wraps } }

/-- The features do not bear on a new machine, apart from its way with the edges. -/
theorem boot_withWraps [Capacity] {p q : Platform} (h : q.geometry = p.geometry)
    (program : List UInt8) :
    boot q program = (boot p program).map (·.withWraps q.dialect.spritesWrap) := by
  simp only [Platform.geometry, Prod.mk.injEq] at h
  obtain ⟨hwidth, hheight, -⟩ := h
  unfold boot new Screen.ofSize
  rw [hwidth, hheight]
  cases Ram.ofSize (p.width * p.height) with
  | error e => rfl
  | ok bank =>
    simp only [bind, Except.bind, pure, Except.pure, load]
    split <;> rfl

theorem wraps_of_boot [Capacity] {p : Platform} {program : List UInt8} {m : Machine}
    (h : boot p program = .ok m) : m.screen.wraps = p.dialect.spritesWrap := by
  obtain ⟨screen, hscreen, rfl⟩ := boot_eq_ok h
  exact Screen.wraps_of_ofSize hscreen

end Machine

/-! ## One step -/

/-- A step that fetches no word on which the platforms differ is the same on both. -/
theorem Processor.step_withWraps {cpu other : Processor} (h : cpu.Alike other)
    (hgeometry : other.platform.geometry = cpu.platform.geometry) {m : Machine}
    (hm : m.screen.wraps = cpu.platform.dialect.spritesWrap)
    (hfree : ∀ w, m.fetched? = some w → ¬ cpu.platform.DifferOn other.platform w) :
    (other.step (m.withWraps other.platform.dialect.spritesWrap)).result = (cpu.step m).result ∧
      (other.step (m.withWraps other.platform.dialect.spritesWrap)).machine =
        (cpu.step m).machine.withWraps other.platform.dialect.spritesWrap ∧
      (cpu.step m).processor.Alike
        (other.step (m.withWraps other.platform.dialect.spritesWrap)).processor := by
  have hagree : ∀ i : Instruction, m.fetched? = some i.word →
      i.AgreedBy cpu.platform.dialect other.platform.dialect ∧
        (.spritesWrap ∈ i.features → other.platform.dialect.spritesWrap = m.screen.wraps) := by
    intro i hi
    have hsame := fun f hf => Platform.get_eq_of_not_differOn (hfree _ hi) (f := f) hf
    exact ⟨fun f hf _ => hsame f hf, fun hf => (hsame .spritesWrap hf).trans hm.symm⟩
  have hglyph : other.platform.glyphSize = cpu.platform.glyphSize :=
    congrArg (fun g => g.2.2) hgeometry
  obtain ⟨later, hrun, hlater⟩ := step_recast h hglyph hagree m.awaitingBlank
  have hblank : later = (cpu.step m).machine.awaitingBlank := by
    refine hlater rfl fun i hi => Instruction.endsFrame_eq fun f hf => ?_
    exact Platform.get_eq_of_not_differOn (hfree _ hi) hf
  refine ⟨hrun.result, ?_, hrun.alike⟩
  have hmachine := hrun.machine
  rw [hblank] at hmachine
  exact hmachine

/-! ## Runs -/

namespace Computer

/-- The two runs are at the same point, but for the platforms. -/
structure Twins (p q : Platform) (a b : Computer) : Prop where
  platform : a.processor.platform = p
  other : b.processor.platform = q
  alike : a.processor.Alike b.processor
  opcode : b.processor.opcode = a.processor.opcode
  wraps : a.machine.screen.wraps = p.dialect.spritesWrap
  machine : b.machine = a.machine.withWraps q.dialect.spritesWrap

variable {p q : Platform} {a b : Computer} {keys : Nat → Array Bool → Array Bool}

theorem Twins.touch (h : Twins p q a b) (set : Array Bool → Array Bool) :
    Twins p q (a.touch set) (b.touch set) := by
  refine { h with machine := ?_ }
  simp only [Computer.touch, h.machine]
  rfl

/-- Twins take the same step and stay twins, if it fetches no word on which they differ. -/
theorem Twins.step (h : Twins p q a b) (hgeometry : q.geometry = p.geometry)
    (hfree : ∀ w, a.machine.fetched? = some w → ¬ p.DifferOn q w) :
    b.machine.fetched? = a.machine.fetched? ∧ b.step.result = a.step.result ∧
      Twins p q ⟨a.step.processor, a.step.machine⟩ ⟨b.step.processor, b.step.machine⟩ := by
  obtain ⟨rfl, rfl, halike, hopcode, hwraps, hmachine⟩ := h
  obtain ⟨hresult, hstep, hcpu⟩ := Processor.step_withWraps halike hgeometry hwraps hfree
  unfold Computer.step
  rw [hmachine]
  refine ⟨rfl, hresult, ?_, ?_, hcpu, ?_, ?_, hstep⟩
  · exact (a.processor.step_processor _).1
  · exact (b.processor.step_processor _).1
  · rw [Processor.step_opcode, Processor.step_opcode, hopcode]
    rfl
  · exact (congrArg Screen.Frame.wraps (a.processor.step_frame _).1).trans hwraps

theorem Twins.after (h : Twins p q a b) (hgeometry : q.geometry = p.geometry) {n : Nat}
    (hfree : ∀ k < n, ∀ w, a.fetched? keys k = some w → ¬ p.DifferOn q w) {k : Nat}
    (hk : k ≤ n) : Twins p q (a.after keys k) (b.after keys k) := by
  induction k with
  | zero => exact h
  | succ k ih =>
    have hready := (ih (by omega)).touch (keys k)
    exact (hready.step hgeometry (hfree k (by omega))).2.2

end Computer

/-- Features act alone. Let two platforms have one geometry, and let a processor run a program on
one of them and its equal on the other, with any keys. As long as the first run fetches no word
that is governed by a feature on which the platforms differ, the second fetches the same words and
comes to the same, and the machines are equal but for their way with the edges of the screen. -/
theorem features_act_alone [Capacity] {cpu : Processor} {q : Platform}
    (hgeometry : q.geometry = cpu.platform.geometry) (program : List UInt8)
    (keys : Nat → Array Bool → Array Bool) :
    Machine.boot q program =
        (Machine.boot cpu.platform program).map (·.withWraps q.dialect.spritesWrap) ∧
      ∀ m, Machine.boot cpu.platform program = .ok m → ∀ a b : Computer, a = ⟨cpu, m⟩ →
        b = ⟨{ cpu with platform := q }, m.withWraps q.dialect.spritesWrap⟩ → ∀ n,
          (∀ k < n, ∀ w, a.fetched? keys k = some w → ¬ cpu.platform.DifferOn q w) →
          (∀ k < n, b.fetched? keys k = a.fetched? keys k ∧
            (b.ready keys k).step.result = (a.ready keys k).step.result) ∧
          ∀ k ≤ n, (b.after keys k).processor.opcode = (a.after keys k).processor.opcode ∧
            (b.after keys k).machine =
              (a.after keys k).machine.withWraps q.dialect.spritesWrap := by
  refine ⟨Machine.boot_withWraps hgeometry program, ?_⟩
  rintro m hm a b rfl rfl n hfree
  have hstart : Computer.Twins cpu.platform q ⟨cpu, m⟩
      ⟨{ cpu with platform := q }, m.withWraps q.dialect.spritesWrap⟩ :=
    ⟨rfl, rfl, ⟨rfl, fun _ => rfl⟩, rfl, Machine.wraps_of_boot hm, rfl⟩
  constructor
  · intro k hk
    have hready := (hstart.after hgeometry hfree (k := k) (by omega)).touch (keys k)
    obtain ⟨hfetched, hresult, -⟩ := hready.step hgeometry (hfree k hk)
    exact ⟨hfetched, hresult⟩
  · intro k hk
    have htwins := hstart.after hgeometry hfree hk
    exact ⟨htwins.opcode, htwins.machine⟩

/-- The platform "cosmacvip", on which a draw is not as on "modern". -/
def cosmacVip : Platform :=
  Platform.preset "cosmacvip" 15
    { logicClearsFlag := true, drawEndsFrame := true, jumpAddsFirst := true }

/-- A program that jumps over a draw. -/
def detourProgram : List UInt8 := [0x60, 0x02, 0xB2, 0x04, 0xD0, 0x01, 0x81, 0x00]

/-- A computer on the platform "modern" with the detour. -/
def detourComputer : Computer :=
  ⟨modernProcessor, Machine.holding modernProcessor.platform detourProgram⟩

attribute [local instance] Capacity.least in
theorem features_act_alone_detour :
    modernProcessor.platform.DifferOn cosmacVip 0xD001 ∧
      Machine.boot modernProcessor.platform detourProgram = .ok detourComputer.machine ∧
      (Computer.after ⟨{ modernProcessor with platform := cosmacVip },
          detourComputer.machine.withWraps false⟩ (fun _ => id) 3).machine =
        (detourComputer.after (fun _ => id) 3).machine.withWraps false := by
  have hboot : Machine.boot modernProcessor.platform detourProgram = .ok detourComputer.machine :=
    rfl
  have hfree : ∀ k < 3, (detourComputer.fetched? (fun _ => id) k).all
      (fun w => !decide (modernProcessor.platform.DifferOn cosmacVip w)) = true := by
    decide +kernel
  obtain ⟨-, hrun⟩ := @features_act_alone _ modernProcessor cosmacVip rfl detourProgram
    (fun _ => id)
  have hfree' : ∀ k < 3, ∀ w, detourComputer.fetched? (fun _ => id) k = some w →
      ¬ modernProcessor.platform.DifferOn cosmacVip w := by
    intro k hk w hw
    have hword := hfree k hk
    rw [hw] at hword
    simpa using hword
  obtain ⟨-, hmachine⟩ := hrun _ hboot detourComputer _ rfl rfl 3 hfree'
  exact ⟨by decide, hboot, (hmachine 3 (Nat.le_refl 3)).2⟩

end Chip8
