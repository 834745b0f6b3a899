/-
  Calls and returns match over whole runs. A step that succeeds keeps the entries in use, puts the
  counter on top of them, or takes the top one off and goes on two past it (`step_moves`). So as
  long as more entries are in use than before a call, the entries up to the one of the call stay
  where they are, and the step that takes that one off goes on after the call
  (`call_returns`). The host may hold and release keys between the steps.
-/
import Chip8.Proofs.Computer
import Chip8.Proofs.History
namespace Chip8

/-! ## One step -/

/-- What a step that succeeds can do to the entries in use. -/
inductive Moves (m n : Machine) : Prop where
  /-- They stay. -/
  | keeps (entries : n.stack.entries = m.stack.entries)
  /-- The counter is put on top. -/
  | pushes (entries : n.stack.entries = m.stack.entries ++ [m.counter])
  /-- The top entry is taken off, and the counter goes on two past it. -/
  | pops {caller : Int} (entries : m.stack.entries = n.stack.entries ++ [caller])
    (counter : n.counter = caller + 2)

/-- The lowest entries stay in place, unless the last of them is the one that is taken off. -/
theorem Moves.frame {m n : Machine} (h : Moves m n) {frame : List Int}
    (hframe : frame <+: m.stack.entries) :
    frame <+: n.stack.entries ∨
      ∃ caller, frame = n.stack.entries ++ [caller] ∧ n.counter = caller + 2 := by
  cases h with
  | keeps entries =>
    rw [entries]
    exact Or.inl hframe
  | pushes entries =>
    rw [entries]
    exact Or.inl (hframe.trans (List.prefix_append _ _))
  | pops entries counter =>
    rw [entries] at hframe
    rcases List.prefix_concat_iff.mp hframe with hlast | hrest
    · exact Or.inr ⟨_, hlast, counter⟩
    · exact Or.inl hrest

namespace Processor

variable {cpu : Processor} {m : Machine} {outcome : Option Bool}

theorem step_moves (hm : m.stack.Sound) (h : (cpu.step m).result = .ok outcome) :
    (cpu.step m).machine.stack.Sound ∧ Moves m (cpu.step m).machine := by
  have hcourse := cpu.step_course m
  generalize cpu.step m = run at h hcourse ⊢
  cases hcourse with
  | outside | dry | stopped => cases h
  | finished | unknown => exact ⟨hm, .keeps rfl⟩
  | @done _ _ i hi number source hn he =>
    have hfoot := Instruction.effect_footprint cpu.platform number i m
    rcases Instruction.effect_stack he with ⟨-, hs⟩ | ⟨-, hpush⟩ | ⟨rfl, hpop⟩
    · refine ⟨?_, .keeps ?_⟩
      · simp only [Machine.countDown, hs]
        exact hm
      · simp only [Machine.countDown, hs]
    · exact ⟨hm.push hpush, .pushes (hm.entries_push hpush)⟩
    · exact ⟨hm.pop hpop, .pops (hm.entries_pop hpop) (hfoot.counter he)⟩

/-- A call that succeeds puts its address on top. -/
theorem step_call (hm : m.stack.Sound) (hf : m.isFinished = false) {target : Address}
    (hcall : m.instruction? = some (.call target)) (h : (cpu.step m).result = .ok outcome) :
    (cpu.step m).machine.stack.entries = m.stack.entries ++ [m.counter] := by
  have hcourse := cpu.step_course m
  generalize cpu.step m = run at h hcourse ⊢
  cases hcourse with
  | finished hfinished =>
    rw [hf] at hfinished
    cases hfinished
  | outside | dry | stopped => cases h
  | unknown _ hb hi =>
    rw [Machine.instruction?_of_inBounds hb, hi] at hcall
    cases hcall
  | done _ hb hi hn he =>
    rw [Machine.instruction?_of_inBounds hb, hi] at hcall
    cases hcall
    exact hm.entries_push (Instruction.effect_call he)

end Processor

/-! ## Runs -/

namespace Computer

/-- A step of a run succeeds. -/
def Succeeds (c : Computer) (keys : Nat → Array Bool → Array Bool) (k : Nat) : Prop :=
  ∃ outcome, ((c.after keys k).touch (keys k)).step.result = .ok outcome

instance (c : Computer) (keys : Nat → Array Bool → Array Bool) (k : Nat) :
    Decidable (c.Succeeds keys k) :=
  match h : ((c.after keys k).touch (keys k)).step.result with
  | .ok outcome => isTrue ⟨outcome, h⟩
  | .error e => isFalse fun ⟨outcome, hok⟩ => by rw [h] at hok; cases hok

/-- The entries in use after some steps. -/
def entries (c : Computer) (keys : Nat → Array Bool → Array Bool) (k : Nat) : List Int :=
  (c.after keys k).machine.stack.entries

section Run

variable {c : Computer} {keys : Nat → Array Bool → Array Bool} {n : Nat}
  (hm : c.machine.stack.Sound) (hsteps : ∀ k < n, c.Succeeds keys k)

include hm hsteps

theorem sound_after {k : Nat} (hk : k ≤ n) : (c.after keys k).machine.stack.Sound := by
  induction k with
  | zero => exact hm
  | succ k ih =>
    obtain ⟨outcome, h⟩ := hsteps k (by omega)
    have hsound : ((c.after keys k).touch (keys k)).machine.stack.Sound := ih (by omega)
    exact (Processor.step_moves hsound h).1

theorem moves_after {k : Nat} (hk : k < n) :
    Moves ((c.after keys k).touch (keys k)).machine (c.after keys (k + 1)).machine := by
  have hsound : ((c.after keys k).touch (keys k)).machine.stack.Sound :=
    sound_after hm hsteps (by omega)
  obtain ⟨outcome, h⟩ := hsteps k hk
  exact (Processor.step_moves hsound h).2

/-- While more entries are in use than before the call, those up to the one of the call stay. -/
theorem frame_after (hf : c.machine.isFinished = false) {target : Address}
    (hcall : c.machine.instruction? = some (.call target))
    (hdeep : ∀ k, 1 ≤ k → k < n →
      c.machine.stack.entries.length + 1 ≤ (c.entries keys k).length)
    {k : Nat} (h1 : 1 ≤ k) (hk : k < n) :
    c.machine.stack.entries ++ [c.machine.counter] <+: c.entries keys k := by
  induction k with
  | zero => omega
  | succ k ih =>
    by_cases h0 : k = 0
    · subst h0
      obtain ⟨outcome, h⟩ := hsteps 0 (by omega)
      have hpush : c.entries keys 1 = c.machine.stack.entries ++ [c.machine.counter] :=
        Processor.step_call (m := (c.touch (keys 0)).machine) hm hf hcall h
      exact ⟨[], by rw [List.append_nil, hpush]⟩
    · have hframe := ih (by omega) (by omega)
      rcases (moves_after hm hsteps (by omega : k < n)).frame hframe with hkept | ⟨_, hlast, -⟩
      · exact hkept
      · have hlength := congrArg List.length hlast
        have hmore := hdeep (k + 1) h1 hk
        simp only [List.length_append, List.length_singleton] at hlength
        unfold entries at hmore
        omega

end Run

/-- A call returns. On a machine with a sound stack, let a step execute a call at an address, and
let more entries be in use after every further step but the last of a run, and as many as before
the call after the last. Then the last step leaves the counter two past the address of the call,
and the entries as they were. -/
theorem call_returns {c : Computer} {keys : Nat → Array Bool → Array Bool} {n nnn : Nat}
    (hm : c.machine.stack.Sound) (hn : 2 ≤ n) (hsteps : ∀ k < n, c.Succeeds keys k)
    (hf : c.machine.isFinished = false) (hnnn : nnn < 0x1000)
    (hcall : c.machine.word? = some (0x2000 + nnn))
    (hdeep : ∀ k, 1 ≤ k → k < n →
      c.machine.stack.entries.length + 1 ≤ (c.entries keys k).length)
    (hback : (c.entries keys n).length = c.machine.stack.entries.length) :
    (c.after keys n).machine.counter = c.machine.counter + 2 ∧
      c.entries keys n = c.machine.stack.entries := by
  obtain ⟨last, rfl⟩ : ∃ last, n = last + 1 := ⟨n - 1, by omega⟩
  have hcall' : c.machine.instruction? = some (.call ⟨nnn, hnnn⟩) :=
    Machine.instruction?_eq_some_iff.mpr hcall
  have hframe := frame_after hm hsteps hf hcall' hdeep (k := last) (by omega) (by omega)
  have hmoves := moves_after hm hsteps (by omega : last < last + 1)
  rcases hmoves.frame hframe with hkept | ⟨caller, hlast, hcounter⟩
  · have hlength := hkept.length_le
    simp only [List.length_append, List.length_singleton] at hlength
    unfold entries at hback
    omega
  · obtain ⟨hentries, hcaller⟩ := List.append_inj' hlast rfl
    cases hcaller
    exact ⟨hcounter, hentries.symm⟩

/-- A program whose subroutine at 0x206 calls the one at 0x20A. -/
def nestedProgram : List UInt8 :=
  [0x22, 0x06, 0x00, 0x00, 0x00, 0x00, 0x22, 0x0A, 0x00, 0xEE, 0x00, 0xEE]

/-- A computer with the nested program. -/
def nestedComputer : Computer where
  processor := modernProcessor
  machine := { Machine.fresh modernProcessor.platform with
    memory := Memory.initial.overlay programStart nestedProgram
    programEnd := programStart + nestedProgram.length }

theorem call_returns_nested :
    nestedComputer.machine.word? = some 0x2206 ∧
      (∀ k < 4, nestedComputer.Succeeds (fun _ => id) k) ∧
      (nestedComputer.after (fun _ => id) 4).machine.counter = 0x202 ∧
      nestedComputer.entries (fun _ => id) 4 = [] := by
  -- one run of the kernel for all of it, since each has to build the memory
  have hrun : nestedComputer.machine.word? = some (0x2000 + 0x206) ∧
      (∀ k < 4, nestedComputer.Succeeds (fun _ => id) k) ∧
      (∀ k < 4, 1 ≤ k → nestedComputer.machine.stack.entries.length + 1 ≤
        (nestedComputer.entries (fun _ => id) k).length) ∧
      (nestedComputer.entries (fun _ => id) 4).length =
        nestedComputer.machine.stack.entries.length := by decide +kernel
  obtain ⟨hcall, hsteps, hdeep, hback⟩ := hrun
  exact ⟨hcall, hsteps, call_returns ⟨rfl, rfl, Nat.zero_le _⟩ (by decide) hsteps (by decide)
    (by decide) hcall (fun k h1 hk => hdeep k hk h1) hback⟩

end Computer

end Chip8
