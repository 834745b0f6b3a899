/-
  What calls make of a bank as it is stored. A call that succeeds leaves a bank of the size that it
  asks for, or of the same size, and one that fails does so for a reason that is known beforehand
  (`Ram.answer_settles`). Since every call comes to the call on the bank, the cells, the size and
  the last location stay together through any calls, and a call that fails has stored nothing
  (`Bank.bank_law`).
-/
import Chip8.Proofs.Bank
namespace Chip8

/-! ## Sizes and failures -/

namespace Bank.Call

/-- The size of a bank after a call that succeeds. -/
def sizeAfter (size : Int) : Call → Int
  | .resize size => size
  | _ => size

/-- The call asks for a block or a bank of a size for which there is no memory, or which does not
fit into a machine word. -/
def Excessive [Capacity] : Call → Prop
  | .zeroBlock _ size | .resize size => fitsWord size = false ∨ Capacity.cells < size
  | _ => False

/-- What a call can fail with. -/
def FailsWith [Capacity] (c : Call) (e : Failure) : Prop :=
  (∃ location, e = .fault (.memoryOverflow location)) ∨ e = .misuse .valueOutOfRange ∨
    c.Excessive ∧ (e = .misuse .overflow ∨ e = .misuse .outOfMemory)

end Bank.Call

/-- A result is a good answer or a failure of a kind. -/
def Settles {α : Type} (good : α → Prop) (bad : Failure → Prop) : Except Failure α → Prop
  | .ok a => good a
  | .error e => bad e

theorem Settles.bind {α β : Type} {good : α → Prop} {later : β → Prop} {bad : Failure → Prop}
    {x : Except Failure α} {f : α → Except Failure β} (hx : Settles good bad x)
    (hf : ∀ a, good a → Settles later bad (f a)) : Settles later bad (x >>= f) := by
  cases x with
  | ok a => exact hf a hx
  | error e => exact hx

namespace Ram

section Settled

variable [Capacity] (r : Ram) (c : Bank.Call)

theorem check_settles (location : Int) :
    Settles (fun _ => True) c.FailsWith (r.check location) := by
  unfold check
  split
  · trivial
  · exact Or.inl ⟨location, rfl⟩

theorem write_settles (location value : Int) :
    Settles (fun later : Ram => later.size = r.size) c.FailsWith (r.write location value) := by
  refine (r.check_settles c location).bind fun _ _ => ?_
  cases byte? value with
  | none => exact Or.inr (Or.inl rfl)
  | some b =>
    refine (r.check_settles c location).bind fun _ _ => ?_
    exact Array.size_setIfInBounds ..

theorem writeBlock_settles (location : Int) (block : List UInt8) :
    Settles (fun later : Ram => later.size = r.size) c.FailsWith (r.writeBlock location block) := by
  refine (r.check_settles c _).bind fun _ _ => ?_
  split
  · exact Or.inr (Or.inl rfl)
  · exact size_overwrite ..

theorem zeroBlock_settles (location size : Int) :
    Settles (fun later : Ram => later.size = r.size) (Bank.Call.zeroBlock location size).FailsWith
      (r.zeroBlock location size) := by
  have hmax := Capacity.cells_le_maxBlockSize
  have hzeros := Capacity.cells_le_zeros
  refine (r.check_settles _ _).bind fun _ _ => ?_
  split
  · unfold misplacedZeros
    split
    · rename_i hlarge
      rw [Bool.or_eq_true, Bool.not_eq_true', decide_eq_true_eq] at hlarge
      exact Or.inr (Or.inr ⟨hlarge.imp_right (by omega), Or.inl rfl⟩)
    · split
      · exact Or.inr (Or.inr ⟨Or.inr (by omega), Or.inr rfl⟩)
      · exact Or.inr (Or.inl rfl)
  · exact size_overwrite ..

theorem ofSize_settles (size : Int) :
    Settles (fun later : Ram => (later.size : Int) = size ∧ later.size ≤ Capacity.cells)
      (Bank.Call.resize size).FailsWith (Ram.ofSize size) := by
  unfold Ram.ofSize
  cases h : cellCount size with
  | ok count =>
    obtain ⟨rfl, hle⟩ := cellCount_eq_ok_iff.mp h
    have hsize : (Ram.mk (Array.replicate count 0)).size = count := Array.size_replicate
    exact ⟨by rw [hsize], by rw [hsize]; exact hle⟩
  | error e =>
    unfold cellCount at h
    split at h
    · rename_i hfits
      cases h
      rw [Bool.not_eq_true'] at hfits
      exact Or.inr (Or.inr ⟨Or.inl hfits, Or.inl rfl⟩)
    · split at h
      · cases h
        exact Or.inr (Or.inl rfl)
      · split at h
        · rename_i hlarge
          cases h
          exact Or.inr (Or.inr ⟨Or.inr hlarge, Or.inr rfl⟩)
        · cases h

/-- A bank is made of a size that is not negative and that there is memory for. -/
theorem exists_ofSize {size : Int} (hpos : 0 ≤ size) (hmemory : size ≤ Capacity.cells) :
    ∃ r : Ram, Ram.ofSize size = .ok r ∧ (r.size : Int) = size := by
  have hcount : cellCount size = .ok size.toNat :=
    cellCount_eq_ok_iff.mpr ⟨by omega, by omega⟩
  refine ⟨⟨Array.replicate size.toNat 0⟩, ?_, ?_⟩
  · rw [ofSize, hcount]
    rfl
  · rw [Ram.size, Array.size_replicate]
    omega

end Settled

/-- A call that succeeds leaves a bank of the size that it asks for, or of the same size. -/
theorem answer_settles [Capacity] (r : Ram) (hcells : r.size ≤ Capacity.cells) (c : Bank.Call) :
    Settles (fun answer : List UInt8 × Ram =>
        (answer.2.size : Int) = c.sizeAfter r.size ∧ answer.2.size ≤ Capacity.cells)
      c.FailsWith (r.answer c) := by
  have keeps : ∀ {outcome : Except Failure Ram}, c.sizeAfter r.size = r.size →
      Settles (fun later : Ram => later.size = r.size) c.FailsWith outcome →
      Settles (fun answer : List UInt8 × Ram =>
          (answer.2.size : Int) = c.sizeAfter r.size ∧ answer.2.size ≤ Capacity.cells)
        c.FailsWith (do return ([], ← outcome)) := by
    intro outcome hsame h
    refine h.bind fun later hlater => ?_
    exact ⟨by rw [hsame, hlater], by rw [hlater]; exact hcells⟩
  cases c with
  | read location =>
    have hread : Settles (fun _ => True) (Bank.Call.read location).FailsWith (r.read location) :=
      (r.check_settles _ location).bind fun _ _ => trivial
    exact hread.bind fun _ _ => ⟨rfl, hcells⟩
  | readBlock location size =>
    have hread : Settles (fun _ => True) (Bank.Call.readBlock location size).FailsWith
        (r.readBlock location size) :=
      (r.check_settles _ _).bind fun _ _ => trivial
    exact hread.bind fun _ _ => ⟨rfl, hcells⟩
  | write location value => exact keeps rfl (r.write_settles _ location value)
  | writeBlock location block => exact keeps rfl (r.writeBlock_settles _ location block)
  | zeroBlock location size => exact keeps rfl (r.zeroBlock_settles location size)
  | clear =>
    refine keeps rfl ((r.check_settles _ _).bind fun _ _ => ?_)
    exact size_overwrite ..
  | resize size =>
    refine (ofSize_settles size).bind fun later hlater => ?_
    exact hlater

/-- The bank after a call, which is the bank from before if the call fails. -/
def perform [Capacity] (r : Ram) (c : Bank.Call) : Ram :=
  match r.answer c with
  | .ok (_, later) => later
  | .error _ => r

/-- The bank after some calls. -/
def after [Capacity] (r : Ram) (calls : List Bank.Call) : Ram := calls.foldl perform r

end Ram

namespace Bank

/-- The bank after some calls, whatever they came to. -/
def after [Capacity] (b : Bank) (calls : List Call) : Bank :=
  calls.foldl (fun b c => ((perform c).on b).2) b

/-- The size and the last location that are kept tell of the cells, and the cells hold bytes. -/
structure Intact (b : Bank) : Prop where
  size : (b.cells.length : Int) = b.size
  top : b.size = b.top + 1
  bytes : ∀ v ∈ b.cells, 0 ≤ v ∧ v ≤ 255

theorem intact_stored (r : Ram) : r.stored.Intact where
  size := congrArg Nat.cast r.length_stored
  top := by
    simp only [Ram.stored]
    omega
  bytes := by
    intro v hv
    obtain ⟨b, -, rfl⟩ := List.mem_map.mp hv
    have hb := b.toNat_lt
    simp only [byteValue]
    omega

section Law

variable [Capacity]

theorem perform_stored {r : Ram} (hcells : r.size ≤ Capacity.cells) (c : Call) :
    ((perform c).on r.stored).2 = (r.perform c).stored ∧ (r.perform c).size ≤ Capacity.cells := by
  have hperform := r.on_perform hcells c
  have hsettles := r.answer_settles hcells c
  rw [hperform, Ram.perform]
  cases h : r.answer c with
  | ok answer =>
    rw [h] at hsettles
    exact ⟨rfl, hsettles.2⟩
  | error e => exact ⟨rfl, hcells⟩

theorem after_stored {r : Ram} (hcells : r.size ≤ Capacity.cells) (calls : List Call) :
    r.stored.after calls = (r.after calls).stored ∧ (r.after calls).size ≤ Capacity.cells := by
  induction calls generalizing r with
  | nil => exact ⟨rfl, hcells⟩
  | cons c calls ih =>
    obtain ⟨hstored, hcells⟩ := perform_stored hcells c
    have hrest := ih hcells
    rw [← hstored] at hrest
    exact hrest

/-- What a call does to a bank: it keeps the bank intact and of its size, unless it asks for
another, and where it fails it leaves the bank as it was. -/
structure Does (b : Bank) (c : Call) : Prop where
  intact : ((perform c).on b).2.Intact
  done : ∀ values, ((perform c).on b).1 = .ok values →
    ((perform c).on b).2.size = c.sizeAfter b.size
  failed : ∀ e, ((perform c).on b).1 = .error e →
    ((perform c).on b).2 = b ∧ c.FailsWith e

theorem does_stored {r : Ram} (hcells : r.size ≤ Capacity.cells) (c : Call) : r.stored.Does c := by
  have hintact : ((perform c).on r.stored).2.Intact := by
    rw [(perform_stored hcells c).1]
    exact intact_stored _
  have hperform := r.on_perform hcells c
  have hsettles := r.answer_settles hcells c
  refine ⟨hintact, ?_, ?_⟩
  · intro values h
    rw [hperform] at h ⊢
    cases ha : r.answer c with
    | ok answer =>
      rw [ha] at hsettles
      exact hsettles.1
    | error e =>
      rw [ha] at h
      cases h
  · intro e h
    rw [hperform] at h ⊢
    cases ha : r.answer c with
    | ok answer =>
      rw [ha] at h
      cases h
    | error e' =>
      rw [ha] at h hsettles
      cases h
      exact ⟨rfl, hsettles⟩

/-- The law of a bank as it is stored, on a host with whatever memory. A bank is made of any size
that there is memory for, and is stored as one of the size. After any calls, whatever they came to,
it is stored as the bank is after these calls, so it is intact. Each further call comes to the call
on the bank, and one that fails has stored nothing. -/
theorem bank_law {size : Int} (hpos : 0 ≤ size) (hmemory : size ≤ Capacity.cells) :
    ∃ r, Ram.ofSize size = .ok r ∧
      (∀ blank : Bank, (resize size).on blank = (.ok (), r.stored)) ∧
      ∀ past : List Call, r.stored.after past = (r.after past).stored ∧
        (r.stored.after past).Intact ∧
        ∀ c, (perform c).on (r.stored.after past) =
            (r.after past).storedAnswer ((r.after past).answer c) ∧
          (r.stored.after past).Does c := by
  obtain ⟨r, hmade, hsize⟩ := Ram.exists_ofSize hpos hmemory
  refine ⟨r, hmade, ?_, ?_⟩
  · intro blank
    rw [Ram.on_resize, hmade]
  · intro past
    obtain ⟨hafter, hcells⟩ := after_stored (by omega : r.size ≤ Capacity.cells) past
    refine ⟨hafter, ?_, ?_⟩
    · rw [hafter]
      exact intact_stored _
    · intro c
      rw [hafter]
      exact ⟨Ram.on_perform _ hcells c, does_stored hcells c⟩

end Law

/-- A bank of five zeros. -/
def fiveZeros : Ram := ⟨#[0, 0, 0, 0, 0]⟩

attribute [local instance] Capacity.least in
theorem bank_law_five :
    Ram.ofSize 5 = .ok fiveZeros ∧
      fiveZeros.stored.after [.write 1 255] = ⟨[0, 255, 0, 0, 0], 5, 4⟩ ∧
      (perform (.writeBlock (-1) [1, 2, 3])).on ⟨[0, 255, 0, 0, 0], 5, 4⟩ =
        (.error (.misuse .valueOutOfRange), ⟨[0, 255, 0, 0, 0], 5, 4⟩) := by
  have hmade : Ram.ofSize 5 = .ok fiveZeros := rfl
  have hafter : fiveZeros.stored.after [.write 1 255] = ⟨[0, 255, 0, 0, 0], 5, 4⟩ := rfl
  have hrefused : ((perform (.writeBlock (-1) [1, 2, 3])).on
      ⟨[0, 255, 0, 0, 0], 5, 4⟩).1 = .error (.misuse .valueOutOfRange) := rfl
  obtain ⟨r, hr, -, hlaw⟩ := bank_law (by decide : (0 : Int) ≤ 5) (by decide)
  cases hmade.symm.trans hr
  obtain ⟨-, -, hdoes⟩ := hlaw [.write 1 255]
  rw [hafter] at hdoes
  exact ⟨hmade, hafter, Prod.ext hrefused ((hdoes _).2.failed _ hrefused).1⟩

end Bank

end Chip8
