/-
  A processor with the machine that it runs, step after step. The host may hold and release keys
  between the steps, but touches nothing else.
-/
import Chip8.Proofs.Course
namespace Chip8

/-- A processor with the machine that it runs. -/
structure Computer where
  processor : Processor
  machine : Machine

namespace Computer

/-- The computer after the host has changed the keys. -/
def touch (c : Computer) (keys : Array Bool → Array Bool) : Computer :=
  { c with machine := { c.machine with keypad := keys c.machine.keypad } }

/-- One step. -/
def step (c : Computer) : Run (Option Bool) := c.processor.step c.machine

/-- The computer after some steps. What the host does with the keys before each is given. -/
def after (c : Computer) (keys : Nat → Array Bool → Array Bool) : Nat → Computer
  | 0 => c
  | n + 1 =>
    let run := ((c.after keys n).touch (keys n)).step
    ⟨run.processor, run.machine⟩

/-- The computer that takes a step of a run: the host has set the keys for it. -/
def ready (c : Computer) (keys : Nat → Array Bool → Array Bool) (k : Nat) : Computer :=
  (c.after keys k).touch (keys k)

/-- The word that a step of a run fetches, unless the program has finished. -/
def fetched? (c : Computer) (keys : Nat → Array Bool → Array Bool) (k : Nat) : Option Nat :=
  (c.ready keys k).machine.fetched?

end Computer

end Chip8
