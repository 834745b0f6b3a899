/-
  A bank as it is stored. The cells hold integers, and the number of cells and the last location are
  kept beside them, so that nothing in the type keeps the three together. An operation compares a
  location with the last one and then takes an item or a slice of the cells, whose bounds may lie on
  either side of them. It gives up where it fails, and what it has stored until then stays.
  Carried out on what is stored of a bank, every operation comes to the operation of the bank
  (`Ram.on_perform`): where the check of the last location is passed, a slice has the length of its
  block exactly if the block does not start before the bank (`Bank.slice_fits_iff`).
-/
import Chip8.Ram
namespace Chip8

/-- A bank as it is stored. -/
structure Bank where
  cells : List Int
  /-- The number of cells. -/
  size : Int
  /-- The last location. -/
  top : Int
  deriving DecidableEq

namespace Bank

/-- A call of an operation of a bank. -/
inductive Call where
  | read (location : Int)
  | write (location value : Int)
  | readBlock (location size : Int)
  | writeBlock (location : Int) (block : List UInt8)
  | zeroBlock (location size : Int)
  | clear
  | resize (size : Int)

/-- The value of a byte. -/
def byteValue (b : UInt8) : Int := b.toNat

/-! ## Items and slices -/

/-- The cell at which a bound of a slice stands. A negative bound counts from the end of the cells,
and a bound outside the cells stands at their nearer end. -/
def sliceBound (cells : List Int) (i : Int) : Nat :=
  min (if i < 0 then i + cells.length else i).toNat cells.length

/-- The values between two bounds, which are none if the bounds stand the wrong way round. -/
def slice (i j : Int) (cells : List Int) : List Int :=
  (cells.drop (sliceBound cells i)).take (sliceBound cells j - sliceBound cells i)

/-- The cells with the values between two bounds replaced, which must be by as many others. -/
def setSlice (i j : Int) (block : List Int) (cells : List Int) : Except Failure (List Int) :=
  if block.length = sliceBound cells j - sliceBound cells i then
    .ok (cells.take (sliceBound cells i) ++ block ++
      cells.drop (sliceBound cells i + block.length))
  else .error (.misuse .valueOutOfRange)

/-- The cell at an index. A negative index counts from the end of the cells. -/
def itemCell (i : Int) (cells : List Int) : Except Failure Nat :=
  let k := if i < 0 then i + cells.length else i
  if 0 ≤ k ∧ k < cells.length then .ok k.toNat else .error (.misuse .indexOutOfRange)

/-- The value at an index. -/
def item (i : Int) (cells : List Int) : Except Failure Int := do
  return cells.getD (← itemCell i cells) 0

/-- The cells with the value at an index replaced, which must be by the value of a byte. -/
def setItem (i value : Int) (cells : List Int) : Except Failure (List Int) := do
  let k ← itemCell i cells
  if 0 ≤ value ∧ value < 256 then return cells.set k value
  else throw (.misuse .valueOutOfRange)

/-- As many zeros as asked for. -/
def zeros [Capacity] (size : Int) : Except Failure (List Int) :=
  if size < 0 ∨ Capacity.zeros < size then .error (.misuse (Ram.misplacedZeros size))
  else .ok (List.replicate size.toNat 0)

/-! ## The operations -/

/-- What is done to a bank, up to a failure. The bank stays as it was when the failure came. -/
abbrev Procedure := ExceptT Failure (StateM Bank)

/-- What a procedure comes to on a bank. -/
def Procedure.on {α : Type} (p : Procedure α) (b : Bank) : Except Failure α × Bank := p.run.run b

/-- Reads the cells. -/
def look {α : Type} (f : List Int → Except Failure α) : Procedure α := do
  match f (← get).cells with
  | .ok a => return a
  | .error e => throw e

/-- Stores other cells. -/
def change (f : List Int → Except Failure (List Int)) : Procedure Unit := do
  let cells ← look f
  modify fun b => { b with cells := cells }

/-- Refuses a location outside the bank. -/
def check (location : Int) : Procedure Unit := do
  if location < 0 ∨ (← get).top < location then throw (.fault (.memoryOverflow location))

/-- Reads the value at a location. -/
def read (location : Int) : Procedure Int := do
  check location
  look (item location)

/-- Stores a value at a location. -/
def write (location value : Int) : Procedure Unit := do
  check location
  change (setItem location value)

/-- Reads the values from a location up to the one a size further on. -/
def readBlock (location size : Int) : Procedure (List Int) := do
  check (location + size - 1)
  look fun cells => .ok (slice location (location + size) cells)

/-- Stores a block from a location onward. -/
def writeBlock (location : Int) (block : List UInt8) : Procedure Unit := do
  let blockTop := location + block.length
  check (blockTop - 1)
  change (setSlice location blockTop (block.map byteValue))

/-- Stores zeros from a location onward. -/
def zeroBlock [Capacity] (location size : Int) : Procedure Unit := do
  let blockTop := location + size
  check (blockTop - 1)
  let block ← look fun _ => zeros size
  change (setSlice location blockTop block)

/-- Stores zeros everywhere. -/
def clear [Capacity] : Procedure Unit := do
  zeroBlock 0 (← get).size

/-- Stores as many zeros as asked for in the place of the cells, and then what is kept beside
them. -/
def resize [Capacity] (size : Int) : Procedure Unit := do
  let count ← look fun _ => cellCount size
  modify fun b => { b with cells := List.replicate count 0 }
  modify fun b => { b with top := size - 1 }
  modify fun b => { b with size := size }

/-- Carries out a call, which answers with the values that were read. -/
def perform [Capacity] : Call → Procedure (List Int)
  | .read location => return [← read location]
  | .write location value => do write location value; return []
  | .readBlock location size => readBlock location size
  | .writeBlock location block => do writeBlock location block; return []
  | .zeroBlock location size => do zeroBlock location size; return []
  | .clear => do clear; return []
  | .resize size => do resize size; return []

section On

variable {α β : Type} (b : Bank)

theorem on_bind (p : Procedure α) (f : α → Procedure β) :
    (p >>= f : Procedure β).on b = match p.on b with
      | (.ok a, c) => (f a).on c
      | (.error e, c) => (.error e, c) := by
  cases hp : p.on b with
  | mk reply c =>
    have hrun : p.run.run b = (reply, c) := hp
    simp only [Procedure.on, ExceptT.run_bind, StateT.run_bind, hrun]
    cases reply with
    | ok a => rfl
    | error e => rfl

theorem on_get : (get : Procedure Bank).on b = (.ok b, b) := rfl

theorem on_look (f : List Int → Except Failure α) : (look f).on b = (f b.cells, b) := by
  rw [look, on_bind, on_get]
  dsimp only
  cases f b.cells with
  | ok a => rfl
  | error e => rfl

theorem on_change (f : List Int → Except Failure (List Int)) :
    (change f).on b = match f b.cells with
      | .ok cells => (.ok (), { b with cells := cells })
      | .error e => (.error e, b) := by
  rw [change, on_bind, on_look]
  cases f b.cells with
  | ok cells => rfl
  | error e => rfl

end On

/-! ## Slices -/

/-- Between bounds whose later one stands inside the cells there are as many cells as the bounds are
apart, unless the earlier one is negative. -/
theorem slice_fits_iff (cells : List Int) {i : Int} {n : Nat} (hpos : 0 < i + n)
    (hle : i + n ≤ cells.length) :
    n = sliceBound cells (i + n) - sliceBound cells i ↔ 0 ≤ i := by
  unfold sliceBound
  rw [if_neg (by omega : ¬ i + n < 0)]
  split
  · omega
  · omega

end Bank

namespace Ram

/-- What is stored of a bank. -/
def stored (r : Ram) : Bank := ⟨r.cells.toList.map Bank.byteValue, r.size, r.size - 1⟩

/-- What a call of an operation answers, and the bank afterwards. -/
def answer [Capacity] (r : Ram) : Bank.Call → Except Failure (List UInt8 × Ram)
  | .read location => do return ([← r.read location], r)
  | .write location value => do return ([], ← r.write location value)
  | .readBlock location size => do return (← r.readBlock location size, r)
  | .writeBlock location block => do return ([], ← r.writeBlock location block)
  | .zeroBlock location size => do return ([], ← r.zeroBlock location size)
  | .clear => do return ([], ← r.clear)
  | .resize size => do return ([], ← Ram.ofSize size)

/-- The stored bank after an operation that makes another bank: that of the other bank, or the one
from before if the operation failed. -/
def storedOutcome (r : Ram) : Except Failure Ram → Except Failure Unit × Bank
  | .ok later => (.ok (), later.stored)
  | .error e => (.error e, r.stored)

theorem length_stored (r : Ram) : r.stored.cells.length = r.size := by
  simp only [stored, List.length_map, Array.length_toList, size]

theorem toList_overwrite {cells : Array UInt8} {i : Nat} {bs : List UInt8}
    (h : i + bs.length ≤ cells.size) :
    (overwrite cells i bs).toList =
      cells.toList.take i ++ bs ++ cells.toList.drop (i + bs.length) := by
  have htake : (cells.toList.take i).length = i := by
    rw [List.length_take, Array.length_toList]
    omega
  apply List.ext_getElem?
  intro j
  rw [Array.getElem?_toList, getElem?_overwrite, List.append_assoc, List.getElem?_append, htake]
  by_cases hj : j < i
  · rw [if_neg (by omega), if_pos hj, List.getElem?_take_of_lt hj, Array.getElem?_toList]
  · rw [if_neg hj, List.getElem?_append]
    by_cases hin : j - i < bs.length
    · rw [if_pos (by omega), if_pos hin]
    · have hrest : i + bs.length + (j - i - bs.length) = j := by omega
      rw [if_neg (by omega), if_neg hin, List.getElem?_drop, Array.getElem?_toList, hrest]

section Stored

variable (r : Ram)

theorem on_check (location : Int) :
    (Bank.check location).on r.stored = (r.check location, r.stored) := by
  rw [Bank.check, Bank.on_bind, Bank.on_get]
  dsimp only [stored]
  by_cases h : 0 ≤ location ∧ location < r.size
  · rw [check, if_pos h, if_neg (by omega)]
    rfl
  · rw [check, if_neg h, if_pos (by omega)]
    rfl

/-- A procedure that begins with a check goes on where the check of the bank is passed. -/
theorem on_checked {α : Type} (location : Int) (p : Bank.Procedure α) :
    (do Bank.check location; p : Bank.Procedure α).on r.stored =
      match r.check location with
      | .ok _ => p.on r.stored
      | .error e => (.error e, r.stored) := by
  rw [Bank.on_bind, on_check]
  cases r.check location with
  | ok u => rfl
  | error e => rfl

theorem itemCell_stored {location : Int} (h : r.check location = .ok ()) :
    Bank.itemCell location r.stored.cells = .ok location.toNat := by
  obtain ⟨h0, hlt⟩ := check_eq_ok_iff.mp h
  have hindex : (if location < 0 then location + (r.size : Int) else location) = location :=
    if_neg (by omega)
  simp only [Bank.itemCell, length_stored, hindex]
  exact if_pos ⟨h0, hlt⟩

theorem getD_stored (k : Nat) : r.stored.cells.getD k 0 = Bank.byteValue (r.cells.getD k 0) := by
  rw [stored, List.getD_eq_getElem?_getD, List.getElem?_map, Array.getElem?_toList,
    Array.getD_eq_getD_getElem?]
  cases r.cells[k]? with
  | none => rfl
  | some b => rfl

/-- A change that comes to the cells of a bank of the same size makes what is stored of it. -/
theorem on_change_ok {f : List Int → Except Failure (List Int)} {later : Ram}
    (hsize : later.size = r.size) (hf : f r.stored.cells = .ok later.stored.cells) :
    (Bank.change f).on r.stored = r.storedOutcome (.ok later) := by
  rw [Bank.on_change, hf]
  simp only [storedOutcome, stored, hsize]

theorem on_change_error {f : List Int → Except Failure (List Int)} {e : Failure}
    (hf : f r.stored.cells = .error e) :
    (Bank.change f).on r.stored = r.storedOutcome (.error e) := by
  rw [Bank.on_change, hf]
  rfl

theorem setItem_stored {location : Int} (h : r.check location = .ok ()) (value : Int) :
    Bank.setItem location value r.stored.cells = match byte? value with
      | some b => .ok (Ram.mk (r.cells.setIfInBounds location.toNat b)).stored.cells
      | none => .error (.misuse .valueOutOfRange) := by
  rw [Bank.setItem, itemCell_stored r h]
  by_cases hbyte : 0 ≤ value ∧ value < 256
  · have hvalue : Bank.byteValue (UInt8.ofNat value.toNat) = value := by
      rw [Bank.byteValue, UInt8.toNat_ofNat']
      omega
    simp only [bind, Except.bind, byte?, if_pos hbyte, stored, Array.toList_setIfInBounds,
      List.map_set, hvalue]
    rfl
  · simp only [bind, Except.bind, byte?, if_neg hbyte]
    rfl

/-- A block whose last location is inside has a slice of its own length exactly if it does not start
before the bank. -/
theorem setSlice_stored {location : Int} {block : List UInt8}
    (h : r.check (location + block.length - 1) = .ok ()) :
    Bank.setSlice location (location + block.length) (block.map Bank.byteValue) r.stored.cells =
      if location < 0 then .error (.misuse .valueOutOfRange)
      else .ok (Ram.mk (overwrite r.cells location.toNat block)).stored.cells := by
  obtain ⟨hpos, hle⟩ := check_eq_ok_iff.mp h
  have hlength := r.length_stored
  have hfits := Bank.slice_fits_iff r.stored.cells (i := location) (n := block.length)
    (by omega) (by omega)
  rw [Bank.setSlice, List.length_map]
  by_cases hneg : location < 0
  · rw [if_pos hneg, if_neg (mt hfits.mp (by omega))]
  · have hstart : Bank.sliceBound r.stored.cells location = location.toNat := by
      rw [Bank.sliceBound, if_neg hneg]
      omega
    have hend : location.toNat + block.length ≤ r.cells.size := by
      have hsize : r.size = r.cells.size := rfl
      omega
    rw [if_neg hneg, if_pos (hfits.mpr (by omega)), hstart]
    simp only [stored, toList_overwrite hend, List.map_append, List.map_take, List.map_drop]

theorem on_setSlice {location : Int} {block : List UInt8}
    (h : r.check (location + block.length - 1) = .ok ()) :
    (Bank.change (Bank.setSlice location (location + block.length)
        (block.map Bank.byteValue))).on r.stored =
      r.storedOutcome (if location < 0 then .error (.misuse .valueOutOfRange)
        else .ok ⟨overwrite r.cells location.toNat block⟩) := by
  have hset := setSlice_stored r h
  by_cases hneg : location < 0
  · rw [if_pos hneg] at hset ⊢
    exact on_change_error r hset
  · rw [if_neg hneg] at hset ⊢
    exact on_change_ok r (size_overwrite ..) hset

theorem slice_stored {location size : Int} (h : r.check (location + size - 1) = .ok ()) :
    Bank.slice location (location + size) r.stored.cells =
      (r.cells.extract (r.firstCell location) (location + size).toNat).toList.map
        Bank.byteValue := by
  obtain ⟨hpos, hle⟩ := check_eq_ok_iff.mp h
  have hstart : Bank.sliceBound r.stored.cells location = min (r.firstCell location) r.size := by
    rw [Bank.sliceBound, length_stored, firstCell]
    split
    · rfl
    · rfl
  have hend : Bank.sliceBound r.stored.cells (location + size) = (location + size).toNat := by
    rw [Bank.sliceBound, length_stored, if_neg (by omega)]
    omega
  rw [Bank.slice, hstart, hend, Array.toList_extract, List.extract_eq_take_drop, List.map_take,
    List.map_drop]
  by_cases hin : r.firstCell location ≤ r.size
  · rw [Nat.min_eq_left hin]
    rfl
  · -- a slice that starts past the end of the bank has no bytes
    have hnone : (location + size).toNat - min (r.firstCell location) r.size = 0 := by omega
    have hnone' : (location + size).toNat - r.firstCell location = 0 := by omega
    rw [hnone, hnone', List.take_zero, List.take_zero]

theorem on_read (location : Int) : (Bank.read location).on r.stored =
    ((r.read location).map Bank.byteValue, r.stored) := by
  rw [Bank.read, on_checked, read]
  cases h : r.check location with
  | error e => rfl
  | ok u =>
    dsimp only
    rw [Bank.on_look, Bank.item, itemCell_stored r h]
    simp only [bind, Except.bind, pure, Except.pure, getD_stored]
    rfl

theorem on_write (location value : Int) : (Bank.write location value).on r.stored =
    r.storedOutcome (r.write location value) := by
  rw [Bank.write, on_checked, write]
  cases h : r.check location with
  | error e => rfl
  | ok u =>
    have hset := setItem_stored r h value
    simp only [bind, Except.bind, store, h]
    cases hb : byte? value with
    | none =>
      rw [hb] at hset
      exact on_change_error r hset
    | some b =>
      rw [hb] at hset
      exact on_change_ok r (Array.size_setIfInBounds ..) hset

theorem on_readBlock (location size : Int) : (Bank.readBlock location size).on r.stored =
    ((r.readBlock location size).map (·.map Bank.byteValue), r.stored) := by
  rw [Bank.readBlock, on_checked, readBlock]
  cases h : r.check (location + size - 1) with
  | error e => rfl
  | ok u =>
    dsimp only
    rw [Bank.on_look, slice_stored r h]
    rfl

theorem on_writeBlock (location : Int) (block : List UInt8) :
    (Bank.writeBlock location block).on r.stored =
      r.storedOutcome (r.writeBlock location block) := by
  rw [Bank.writeBlock, on_checked, writeBlock]
  cases h : r.check (location + block.length - 1) with
  | error e => rfl
  | ok u =>
    refine (on_setSlice r h).trans ?_
    simp only [bind, Except.bind]
    split
    · rfl
    · rfl

theorem misplacedZeros_of_le [Capacity] {size : Int} (hpos : 0 ≤ size)
    (h : size ≤ Capacity.zeros) : misplacedZeros size = .valueOutOfRange := by
  have hmax := Capacity.zeros_le_maxBlockSize
  have hfits := fitsWord_of_le_maxBlockSize hpos (by omega)
  have hsmall : ¬ (!fitsWord size || decide ((maxBlockSize : Int) < size)) = true := by
    simp only [hfits, Bool.not_true, Bool.false_or, decide_eq_true_eq]
    omega
  rw [misplacedZeros, if_neg hsmall, if_neg (by omega)]

theorem on_zeroBlock [Capacity] (hcells : r.size ≤ Capacity.cells) (location size : Int) :
    (Bank.zeroBlock location size).on r.stored = r.storedOutcome (r.zeroBlock location size) := by
  have hzeros := Capacity.cells_le_zeros
  rw [Bank.zeroBlock, on_checked, zeroBlock]
  cases h : r.check (location + size - 1) with
  | error e => rfl
  | ok u =>
    obtain ⟨hpos, hle⟩ := check_eq_ok_iff.mp h
    dsimp only
    rw [Bank.on_bind, Bank.on_look, Bank.zeros]
    by_cases hmany : size < 0 ∨ Capacity.zeros < size
    · rw [if_pos hmany]
      simp only [bind, Except.bind, if_pos (by omega : size < 0 ∨ location < 0)]
      rfl
    · have hlength : ((List.replicate size.toNat (0 : UInt8)).length : Int) = size := by
        rw [List.length_replicate]
        omega
      rw [← hlength] at h
      have hset := on_setSlice r h
      rw [hlength, List.map_replicate] at hset
      obtain ⟨hsize, hzeros⟩ := not_or.mp hmany
      rw [if_neg hmany]
      refine hset.trans ?_
      simp only [bind, Except.bind,
        misplacedZeros_of_le (Int.not_lt.mp hsize) (Int.not_lt.mp hzeros)]
      by_cases hneg : location < 0
      · rw [if_pos hneg, if_pos (Or.inr hneg)]
        rfl
      · rw [if_neg hneg, if_neg (by omega)]
        rfl

theorem on_clear [Capacity] (hcells : r.size ≤ Capacity.cells) :
    Bank.clear.on r.stored = r.storedOutcome r.clear := by
  rw [Bank.clear, Bank.on_bind, Bank.on_get, clear_eq_zeroBlock]
  exact on_zeroBlock r hcells 0 r.size

end Stored

/-- A change of size needs nothing of what was stored before. -/
theorem on_resize [Capacity] (b : Bank) (size : Int) :
    (Bank.resize size).on b = match Ram.ofSize size with
      | .ok r => (.ok (), r.stored)
      | .error e => (.error e, b) := by
  rw [Bank.resize, Bank.on_bind, Bank.on_look, Ram.ofSize]
  cases h : cellCount size with
  | error e => rfl
  | ok count =>
    obtain ⟨rfl, -⟩ := cellCount_eq_ok_iff.mp h
    have hstored : (Ram.mk (Array.replicate count 0)).stored =
        ⟨List.replicate count 0, count, count - 1⟩ := by
      simp only [stored, Ram.size, Array.size_replicate, Array.toList_replicate,
        List.map_replicate]
      rfl
    exact congrArg (Prod.mk (Except.ok ())) hstored.symm

/-! ## Calls -/

/-- What is answered and stored for an answer and a bank afterwards, or for a failure. -/
def storedAnswer (r : Ram) : Except Failure (List UInt8 × Ram) → Except Failure (List Int) × Bank
  | .ok (bytes, later) => (.ok (bytes.map Bank.byteValue), later.stored)
  | .error e => (.error e, r.stored)

/-- A call on what is stored of a bank comes to the call on the bank. -/
theorem on_perform [Capacity] (r : Ram) (hcells : r.size ≤ Capacity.cells) (c : Bank.Call) :
    (Bank.perform c).on r.stored = r.storedAnswer (r.answer c) := by
  -- a call that makes another bank answers nothing
  have settles : ∀ (p : Bank.Procedure Unit) (outcome : Except Failure Ram),
      p.on r.stored = r.storedOutcome outcome →
      (do p; return [] : Bank.Procedure (List Int)).on r.stored =
        r.storedAnswer (do return ([], ← outcome)) := by
    intro p outcome hp
    rw [Bank.on_bind, hp]
    cases outcome with
    | ok later => rfl
    | error e => rfl
  cases c with
  | read location =>
    rw [Bank.perform, Bank.on_bind, on_read, answer]
    cases r.read location with
    | ok b => rfl
    | error e => rfl
  | readBlock location size =>
    rw [Bank.perform, on_readBlock, answer]
    cases r.readBlock location size with
    | ok bytes => rfl
    | error e => rfl
  | write location value => exact settles _ _ (on_write r location value)
  | writeBlock location block => exact settles _ _ (on_writeBlock r location block)
  | zeroBlock location size => exact settles _ _ (on_zeroBlock r hcells location size)
  | clear => exact settles _ _ (on_clear r hcells)
  | resize size =>
    refine settles _ (Ram.ofSize size) ?_
    rw [on_resize]
    cases Ram.ofSize size with
    | ok later => rfl
    | error e => rfl

end Ram

end Chip8
