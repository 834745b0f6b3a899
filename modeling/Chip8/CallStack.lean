/-
  The call stack: a fixed row of slots for return addresses, and the count of those in use. A
  push onto a full stack and a pop of an empty one are refused; neither wraps around.
-/
import Chip8.Size
namespace Chip8

/-- A call stack. A popped entry stays in its slot until a push replaces it. -/
structure CallStack where
  /-- The capacity that was asked for; one below zero has no slots. -/
  capacity : Int
  slots : Array Int
  depth : Nat
  deriving DecidableEq

namespace CallStack

/-- An empty stack. -/
def ofCapacity (capacity : Int) : CallStack := ⟨capacity, Array.replicate capacity.toNat 0, 0⟩

/-- An empty stack, if its capacity can be asked for. One below zero can, though it has no use. A
slot takes up as much as eight cells of a bank. -/
def new [Capacity] (capacity : Int) : Except Failure CallStack :=
  if !fitsWord capacity then .error (.misuse .overflow)
  else if Capacity.cells < 8 * capacity then .error (.misuse .outOfMemory)
  else .ok (ofCapacity capacity)

/-- The entries in use, oldest first. -/
def entries (s : CallStack) : List Int := s.slots.toList.take s.depth

/-- The stack with an entry put on top. -/
def push (s : CallStack) (entry : Int) : Except Failure CallStack :=
  if s.capacity ≤ s.depth then .error (.fault .stackOverflow)
  else .ok { s with slots := s.slots.setIfInBounds s.depth entry, depth := s.depth + 1 }

/-- The top entry, and the stack without it. -/
def pop (s : CallStack) : Except Failure (Int × CallStack) :=
  match s.depth with
  | 0 => .error (.fault .stackUnderflow)
  | d + 1 => .ok (s.slots.getD d 0, { s with depth := d })

theorem entries_push {s t : CallStack} {entry : Int} (hs : s.depth < s.slots.size)
    (h : s.push entry = .ok t) : t.entries = s.entries ++ [entry] := by
  unfold push at h
  split at h
  · simp at h
  · simp only [Except.ok.injEq] at h
    subst h
    simp only [entries, Array.toList_setIfInBounds]
    rw [List.take_add_one, List.take_set_of_le (Nat.le_refl _),
      List.getElem?_set_self (by simpa using hs)]
    rfl

theorem entries_pop {s t : CallStack} {entry : Int} (hs : s.depth ≤ s.slots.size)
    (h : s.pop = .ok (entry, t)) : s.entries = t.entries ++ [entry] := by
  unfold pop at h
  split at h
  · simp at h
  · rename_i d hd
    simp only [Except.ok.injEq, Prod.mk.injEq] at h
    obtain ⟨rfl, rfl⟩ := h
    simp only [entries, hd]
    have hlt : d < s.slots.size := by omega
    rw [List.take_add_one]
    simp [hlt]

end CallStack

end Chip8
