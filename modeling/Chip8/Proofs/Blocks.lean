/-
  Blocks of a bank. A block lies in a bank if it neither starts before it nor ends past it. A block
  operation should be carried out on such a block and refused on any other, but it compares only
  the last location of the block with the size of the bank. The two part ways on stray blocks: one
  that starts before the bank and ends inside it is not refused as it should be, and one without
  bytes at the start of the bank is refused though it lies in it. On all other blocks, and on no
  stray one, the operations keep to the law (`block_law_iff_not_stray`).
-/
import Chip8.Ram
namespace Chip8.Ram

/-- The block of some bytes from a location onward lies in the bank. -/
def Holds (r : Ram) (location : Int) (n : Nat) : Prop := 0 ≤ location ∧ location + n ≤ r.size

/-- The bytes are those of the bank from a location onward, as many as asked for. -/
def Reads (r : Ram) (location : Int) (n : Nat) (bytes : List UInt8) : Prop :=
  bytes = (r.cells.toList.drop location.toNat).take n

/-- The later bank has a block from a location onward, and every other byte as it was. -/
def Replaces (r : Ram) (location : Int) (block : List UInt8) (later : Ram) : Prop :=
  later.size = r.size ∧ ∀ j : Nat, later.cells[j]? =
    if location ≤ j ∧ j < location + block.length then block[(j - location).toNat]?
    else r.cells[j]?

/-- The law of a block operation: on a block that lies in the bank it does what it should, and any
other block is refused as a fault. -/
structure Confines {α : Type} (r : Ram) (location : Int) (n : Nat) (outcome : Except Failure α)
    (Good : α → Prop) : Prop where
  inside : r.Holds location n → ∃ a, outcome = .ok a ∧ Good a
  outside : ¬ r.Holds location n → ∃ l, outcome = .error (.fault (.memoryOverflow l))

/-- The last location of the block lies in the bank. A block without bytes counts as one that ends
where it starts, so its last location is the one before. -/
def LastInside (r : Ram) (location : Int) (n : Nat) : Prop :=
  0 < location + n ∧ location + n ≤ r.size

/-- The last location of the block tells something else than the whole block. -/
def Stray (r : Ram) (location : Int) (n : Nat) : Prop :=
  location < 0 ∧ r.LastInside location n ∨ location = 0 ∧ n = 0

/-- The operation looks only at the last location of the block. -/
structure ChecksLast {α : Type} (r : Ram) (location : Int) (n : Nat) (outcome : Except Failure α)
    (Good : α → Prop) : Prop where
  refused : ¬ r.LastInside location n →
    outcome = .error (.fault (.memoryOverflow (location + n - 1)))
  done : 0 ≤ location → r.LastInside location n → ∃ a, outcome = .ok a ∧ Good a
  before : location < 0 → r.LastInside location n →
    ∀ l, outcome ≠ .error (.fault (.memoryOverflow l))

section Law

variable {r : Ram} {location : Int} {n : Nat}

theorem check_last (h : r.LastInside location n) : r.check (location + n - 1) = .ok () := by
  obtain ⟨hpos, hle⟩ := h
  exact check_eq_ok_iff.mpr ⟨by omega, by omega⟩

theorem check_last_error (h : ¬ r.LastInside location n) :
    r.check (location + n - 1) = .error (.fault (.memoryOverflow (location + n - 1))) := by
  refine if_neg fun hcheck => h ?_
  exact ⟨by omega, by omega⟩

/-- An operation that looks only at the last location keeps to the law except on stray blocks. -/
theorem ChecksLast.confines_iff {α : Type} {outcome : Except Failure α} {Good : α → Prop}
    (h : r.ChecksLast location n outcome Good) :
    r.Confines location n outcome Good ↔ ¬ r.Stray location n := by
  constructor
  · rintro ⟨hinside, houtside⟩ (⟨hneg, hlast⟩ | ⟨rfl, rfl⟩)
    · obtain ⟨l, hl⟩ := houtside fun hholds => by
        have hstart := hholds.1
        omega
      exact h.before hneg hlast l hl
    · obtain ⟨a, ha, -⟩ := hinside ⟨by omega, by omega⟩
      have hrefused := h.refused fun hlast => by
        have hpos := hlast.1
        omega
      rw [ha] at hrefused
      cases hrefused
  · intro hregular
    refine ⟨fun ⟨hstart, hend⟩ => ?_, fun hout => ⟨_, h.refused fun hlast => ?_⟩⟩
    · have hnonempty : 0 < location + n := by
        by_cases hpos : 0 < location + n
        · exact hpos
        · exact absurd (Or.inr ⟨by omega, by omega⟩) hregular
      exact h.done hstart ⟨hnonempty, hend⟩
    · by_cases hneg : location < 0
      · exact hregular (Or.inl ⟨hneg, hlast⟩)
      · exact hout ⟨by omega, hlast.2⟩

end Law

/-! ## The three operations -/

theorem replaces_overwrite {r : Ram} {location : Int} {block : List UInt8} (hstart : 0 ≤ location)
    (hend : location + block.length ≤ r.size) :
    r.Replaces location block ⟨overwrite r.cells location.toNat block⟩ := by
  refine ⟨size_overwrite _ _ _, fun j => ?_⟩
  have hoffset : (j - location).toNat = j - location.toNat := by omega
  have hsize : r.size = r.cells.size := rfl
  rw [getElem?_overwrite, hoffset]
  by_cases hj : location ≤ j ∧ j < location + block.length
  · rw [if_pos hj, if_pos (by omega)]
  · rw [if_neg hj, if_neg (by omega)]

theorem readBlock_checksLast (r : Ram) (location : Int) (n : Nat) :
    r.ChecksLast location n (r.readBlock location n) (r.Reads location n) where
  refused h := by
    rw [readBlock, check_last_error h]
    rfl
  done hstart h := by
    have hfirst : r.firstCell location = location.toNat := if_neg (by omega)
    have hcount : (location + n).toNat - location.toNat = n := by omega
    refine ⟨_, by rw [readBlock, check_last h]; rfl, ?_⟩
    rw [Reads, hfirst, Array.toList_extract, List.extract_eq_take_drop, hcount]
  before _ h l := by
    rw [readBlock, check_last h]
    intro hsame
    cases hsame

theorem writeBlock_checksLast (r : Ram) (location : Int) (block : List UInt8) :
    r.ChecksLast location block.length (r.writeBlock location block)
      (r.Replaces location block) where
  refused h := by
    rw [writeBlock, check_last_error h]
    rfl
  done hstart h := by
    refine ⟨_, ?_, replaces_overwrite hstart h.2⟩
    simp only [writeBlock, check_last h, bind, Except.bind, if_neg (Int.not_lt.mpr hstart)]
    rfl
  before hneg h l := by
    simp only [writeBlock, check_last h, bind, Except.bind, if_pos hneg]
    intro hsame
    cases hsame

theorem zeroBlock_checksLast [Capacity] (r : Ram) (location : Int) (n : Nat) :
    r.ChecksLast location n (r.zeroBlock location n)
      (r.Replaces location (List.replicate n 0)) where
  refused h := by
    rw [zeroBlock, check_last_error h]
    rfl
  done hstart h := by
    have hend : location + (List.replicate n (0 : UInt8)).length ≤ r.size := by
      rw [List.length_replicate]
      exact h.2
    refine ⟨_, ?_, replaces_overwrite hstart hend⟩
    have hplaced : ¬ ((n : Int) < 0 ∨ location < 0) := by omega
    simp only [zeroBlock, check_last h, bind, Except.bind, if_neg hplaced, Int.toNat_natCast]
    rfl
  before hneg h l := by
    simp only [zeroBlock, check_last h, bind, Except.bind, if_pos (Or.inr hneg)]
    intro hsame
    cases hsame

/-- A block is read, written and zeroed by the law exactly if it is not stray. Of a stray block that
starts before the bank, other bytes are read than those of the block, and a write or zeros are
refused as a misuse. A stray block without bytes is refused by all three. -/
theorem block_law_iff_not_stray [Capacity] (r : Ram) (location : Int) (block : List UInt8) :
    (r.Confines location block.length (r.readBlock location block.length)
        (r.Reads location block.length) ↔ ¬ r.Stray location block.length) ∧
      (r.Confines location block.length (r.writeBlock location block)
        (r.Replaces location block) ↔ ¬ r.Stray location block.length) ∧
      (r.Confines location block.length (r.zeroBlock location block.length)
        (r.Replaces location (List.replicate block.length 0)) ↔
          ¬ r.Stray location block.length) ∧
      (location < 0 → r.LastInside location block.length →
        (∃ bytes, r.readBlock location block.length = .ok bytes ∧ bytes.length < block.length) ∧
        (∃ e, r.writeBlock location block = .error (.misuse e)) ∧
        ∃ e, r.zeroBlock location block.length = .error (.misuse e)) ∧
      (location = 0 → block = [] →
        r.readBlock location block.length = .error (.fault (.memoryOverflow (-1))) ∧
        r.writeBlock location block = .error (.fault (.memoryOverflow (-1))) ∧
        r.zeroBlock location block.length = .error (.fault (.memoryOverflow (-1)))) := by
  refine ⟨(r.readBlock_checksLast location block.length).confines_iff,
    (r.writeBlock_checksLast location block).confines_iff,
    (r.zeroBlock_checksLast location block.length).confines_iff, ?_, ?_⟩
  · intro hneg hlast
    refine ⟨⟨_, by rw [readBlock, check_last hlast]; rfl, ?_⟩,
      ⟨.valueOutOfRange, ?_⟩, ⟨misplacedZeros block.length, ?_⟩⟩
    · -- the start is counted from the end of the bank, or put at its start, and either falls short
      have hfirst : r.firstCell location = (location + r.size).toNat := if_pos hneg
      have hbytes := hlast.1
      rw [Array.length_toList, Array.size_extract, hfirst]
      omega
    · simp only [writeBlock, check_last hlast, bind, Except.bind, if_pos hneg]
      rfl
    · simp only [zeroBlock, check_last hlast, bind, Except.bind, if_pos (Or.inr hneg)]
      rfl
  · rintro rfl rfl
    have hlast : ¬ r.LastInside 0 ([] : List UInt8).length := fun h => by
      have hpos := h.1
      simp only [List.length_nil] at hpos
      omega
    exact ⟨(r.readBlock_checksLast 0 _).refused hlast, (r.writeBlock_checksLast 0 []).refused hlast,
      (r.zeroBlock_checksLast 0 _).refused hlast⟩

/-- A bank of five bytes. -/
def fiveBytes : Ram := ⟨#[1, 2, 3, 4, 5]⟩

/-- Of a block that starts before the bank no bytes are read, and an empty block at its start is
refused. -/
theorem readBlock_breaks_law :
    ¬ fiveBytes.Confines (-1) 3 (fiveBytes.readBlock (-1) 3) (fiveBytes.Reads (-1) 3) ∧
      ¬ fiveBytes.Confines 0 0 (fiveBytes.readBlock 0 0) (fiveBytes.Reads 0 0) := by
  constructor
  · intro h
    obtain ⟨l, hl⟩ := h.outside (by unfold Holds; decide)
    have hread : fiveBytes.readBlock (-1) 3 = .ok [] := rfl
    rw [hread] at hl
    cases hl
  · intro h
    obtain ⟨bytes, hbytes, -⟩ := h.inside (by unfold Holds; decide)
    have hread : fiveBytes.readBlock 0 0 = .error (.fault (.memoryOverflow (-1))) := rfl
    rw [hread] at hbytes
    cases hbytes

end Chip8.Ram
