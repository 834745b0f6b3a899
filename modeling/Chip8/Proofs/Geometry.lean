/-
  A screen as it is stored. The width, the height and the number of pixels are kept beside the bank,
  and nothing in the type ties them to its cells. A change of size stores the new dimensions first,
  and only then asks for the cells, which can be refused. Carried out on what is stored of a screen,
  every call comes to the call on the screen (`Screen.perform_stored`). So the dimensions tell of
  the cells through any calls, those that fail included, as long as no change of size is refused.
  One that is refused leaves dimensions behind that the cells do not have
  (`Panel.geometry_law_iff_not_refused`).
-/
import Chip8.Proofs.BankCalls
import Chip8.Proofs.Drawing
import Mathlib.Data.Int.Bitwise
namespace Chip8

/-- A screen as it is stored. -/
structure Panel where
  width : Int
  height : Int
  /-- The number of pixels. -/
  area : Int
  wraps : Bool
  bank : Bank
  deriving DecidableEq

namespace Panel

/-- A call of an operation of a screen. -/
inductive Call where
  | clear
  | pixel (x y : Int)
  | xorPixel (x y : Int)
  | resize (width height : Int)

/-! ## The operations -/

/-- Carries out a procedure on the bank. -/
def onBank {α : Type} (p : Panel) (procedure : Bank.Procedure α) : Except Failure α × Panel :=
  let (result, bank) := procedure.on p.bank
  (result, { p with bank := bank })

/-- A coordinate brought back into a length, which has to have room. -/
def wrapped (i length : Int) : Except Failure Int :=
  if length = 0 then .error (.misuse .divisionByZero) else .ok (i.fmod length)

/-- The column and the row of the pixel that is flipped, unless it is clipped. -/
def aim (p : Panel) (x y : Int) : Except Failure (Option (Int × Int)) := do
  if p.wraps then
    let x ← wrapped x p.width
    let y ← wrapped y p.height
    return some (x, y)
  else if p.width ≤ x ∨ p.height ≤ y then return none
  else return some (x, y)

/-- Flips the last bit of the value at a location, and answers with the value from before. -/
def flipAt (location : Int) : Bank.Procedure Int := do
  let prior ← Bank.read location
  Bank.write location (Int.xor prior 1)
  return prior

/-- Flips a pixel, and answers with its value from before, unless it is clipped. -/
def xorPixel (p : Panel) (x y : Int) : Except Failure (Option Int) × Panel :=
  match p.aim x y with
  | .error e => (.error e, p)
  | .ok none => (.ok none, p)
  | .ok (some (x, y)) => p.onBank (do return some (← flipAt (y * p.width + x)))

/-- Stores other dimensions and then as many zeros as they call for. -/
def resize [Capacity] (p : Panel) (width height : Int) : Except Failure (Option Int) × Panel :=
  let p := { p with width := width }
  let p := { p with height := height }
  let p := { p with area := p.width * p.height }
  p.onBank (do Bank.resize p.area; return none)

/-- Carries out a call, which answers with a pixel if it is about one. -/
def perform [Capacity] (p : Panel) : Call → Except Failure (Option Int) × Panel
  | .clear => p.onBank (do Bank.clear; return none)
  | .pixel x y => p.onBank (do return some (← Bank.read (y * p.width + x)))
  | .xorPixel x y => p.xorPixel x y
  | .resize width height => p.resize width height

/-- The panel after some calls, whatever they came to. -/
def after [Capacity] (p : Panel) (calls : List Call) : Panel :=
  calls.foldl (fun p c => (p.perform c).2) p

/-- A panel without pixels. -/
def blank (wraps : Bool) : Panel := ⟨0, 0, 0, wraps, ⟨[], 0, -1⟩⟩

/-- A new panel. -/
def make [Capacity] (width height : Int) (wraps : Bool) : Except Failure Panel :=
  match (blank wraps).resize width height with
  | (.ok _, p) => .ok p
  | (.error e, _) => .error e

/-! ## The law -/

/-- The dimensions, the number of pixels and the cells tell of one another. -/
structure Agrees (p : Panel) : Prop where
  area : p.area = p.width * p.height
  cells : (p.bank.cells.length : Int) = p.area

/-- The dimensions and the pixels of two panels are the same. -/
structure SameView (p q : Panel) : Prop where
  width : q.width = p.width
  height : q.height = p.height
  cells : q.bank.cells = p.bank.cells

/-- What a call should do to a panel: afterwards the dimensions tell of the cells, and if the call
failed, then dimensions and pixels are those from before. -/
structure Keeps [Capacity] (p : Panel) (c : Call) : Prop where
  agrees : (p.perform c).2.Agrees
  failed : ∀ e, (p.perform c).1 = .error e → p.SameView (p.perform c).2

/-- Each of some calls does what it should to what the calls before it have left. -/
def KeepsThrough [Capacity] (p : Panel) (calls : List Call) : Prop :=
  ∀ past c, past ++ [c] <+: calls → (p.after past).Keeps c

/-- The call asks for dimensions of fewer than no pixels, or of more than there is memory for. -/
def Call.Refused [Capacity] : Call → Prop
  | .resize width height => width * height < 0 ∨ Capacity.cells < width * height
  | _ => False

theorem Call.Refused.isResize [Capacity] {c : Call} (h : c.Refused) :
    ∃ width height, c = .resize width height := by
  cases c with
  | resize width height => exact ⟨width, height, rfl⟩
  | clear | pixel x y | xorPixel x y => exact h.elim

theorem after_cons [Capacity] (p : Panel) (c : Call) (calls : List Call) :
    p.after (c :: calls) = (p.perform c).2.after calls := rfl

end Panel

/-! ## Calls on a screen -/

namespace Screen

/-- What is stored of a screen. -/
def stored (s : Screen) : Panel := ⟨s.width, s.height, s.area, s.wraps, s.bank.stored⟩

theorem stored_bank (s : Screen) : s.stored.bank = s.bank.stored := rfl

theorem stored_width (s : Screen) : s.stored.width = s.width := rfl

/-- What a call comes to on a screen, and the screen afterwards. -/
def perform [Capacity] (s : Screen) : Panel.Call → Except Failure (Option UInt8) × Screen
  | .clear =>
    match s.clear with
    | .ok t => (.ok none, t)
    | .error e => (.error e, s)
  | .pixel x y => ((s.pixel x y).map some, s)
  | .xorPixel x y =>
    match s.xorPixel x y with
    | .ok (prior, t) => (.ok prior, t)
    | .error e => (.error e, s)
  | .resize width height =>
    let (result, t) := s.resize width height
    (result.map fun () => none, t)

/-- The screen after some calls, whatever they came to. -/
def after [Capacity] (s : Screen) (calls : List Panel.Call) : Screen :=
  calls.foldl (fun s c => (s.perform c).2) s

/-- What is answered and stored of what a call came to on a screen. -/
def storedReply (reply : Except Failure (Option UInt8) × Screen) :
    Except Failure (Option Int) × Panel :=
  (reply.1.map (·.map Bank.byteValue), reply.2.stored)

theorem agrees_stored_iff {s : Screen} : s.stored.Agrees ↔ s.Filled := by
  have hlength : (s.stored.bank.cells.length : Int) = s.bank.size :=
    congrArg Nat.cast s.bank.length_stored
  constructor
  · intro h
    exact hlength.symm.trans h.cells
  · intro h
    exact ⟨rfl, hlength.trans h⟩

/-- What a procedure on the bank comes to, with its answer turned into another. -/
theorem onBank_map {α β : Type} (p : Panel) (procedure : Bank.Procedure α) (f : α → β) :
    p.onBank (do return f (← procedure)) =
      ((procedure.on p.bank).1.map f, { p with bank := (procedure.on p.bank).2 }) := by
  rw [Panel.onBank, Bank.on_bind]
  cases procedure.on p.bank with
  | mk result bank =>
    cases result with
    | error e => rfl
    | ok a => rfl

theorem aim_stored (s : Screen) (x y : Int) :
    ((s.stored.aim x y).map fun aim => aim.map fun q => q.2 * s.width + q.1) = s.locate x y := by
  have hwidth : s.stored.width = s.width := rfl
  have hheight : s.stored.height = s.height := rfl
  have hwraps : s.stored.wraps = s.wraps := rfl
  unfold Panel.aim locate
  rw [hwidth, hheight, hwraps]
  split
  · by_cases hw : s.width = 0
    · rw [Panel.wrapped, if_pos hw, if_pos (Or.inl hw)]
      rfl
    · by_cases hh : s.height = 0
      · rw [Panel.wrapped, Panel.wrapped, if_neg hw, if_pos hh, if_pos (Or.inr hh)]
        rfl
      · rw [Panel.wrapped, Panel.wrapped, if_neg hw, if_neg hh, if_neg (not_or.mpr ⟨hw, hh⟩)]
        rfl
  · split
    · rfl
    · rfl

theorem byte?_flip (b : UInt8) : byte? (Int.xor (Bank.byteValue b) 1) = some (b ^^^ 1) := by
  have hvalue : Int.xor (Bank.byteValue b) 1 = ((b ^^^ 1).toNat : Int) := by
    rw [UInt8.toNat_xor]
    rfl
  have hlt := (b ^^^ 1).toNat_lt
  rw [hvalue, byte?, if_pos (by omega), Int.toNat_natCast, UInt8.ofNat_toNat]

theorem write_flip (r : Ram) (location : Int) (b : UInt8) :
    r.write location (Int.xor (Bank.byteValue b) 1) = r.store location (b ^^^ 1) := by
  unfold Ram.write
  rw [byte?_flip]
  cases h : r.check location with
  | ok u => rfl
  | error e =>
    rw [Ram.store, h]
    rfl

theorem on_flipAt (r : Ram) (location : Int) :
    (Panel.flipAt location).on r.stored =
      match r.read location with
      | .error e => (.error e, r.stored)
      | .ok prior =>
        match r.store location (prior ^^^ 1) with
        | .error e => (.error e, r.stored)
        | .ok later => (.ok (Bank.byteValue prior), later.stored) := by
  rw [Panel.flipAt, Bank.on_bind, Ram.on_read]
  cases r.read location with
  | error e => rfl
  | ok prior =>
    dsimp only [Except.map]
    rw [Bank.on_bind, Ram.on_write, write_flip]
    cases r.store location (prior ^^^ 1) with
    | error e => rfl
    | ok later => rfl

theorem xorPixel_stored [Capacity] (s : Screen) (x y : Int) :
    s.stored.xorPixel x y = storedReply (s.perform (.xorPixel x y)) := by
  have hlocate := s.aim_stored x y
  rw [Panel.xorPixel, perform, xorPixel, ← hlocate]
  cases s.stored.aim x y with
  | error e => rfl
  | ok aim? =>
    cases aim? with
    | none => rfl
    | some q =>
      dsimp only [Except.map, Option.map]
      rw [onBank_map, stored_bank, stored_width, on_flipAt]
      dsimp only [bind, Except.bind]
      cases s.bank.read (q.2 * s.width + q.1) with
      | error e => rfl
      | ok prior =>
        dsimp only
        cases s.bank.store (q.2 * s.width + q.1) (prior ^^^ 1) with
        | error e => rfl
        | ok later => rfl

/-- A call on what is stored of a screen comes to the call on the screen. -/
theorem perform_stored [Capacity] (s : Screen) (hcells : s.bank.size ≤ Capacity.cells)
    (c : Panel.Call) :
    s.stored.perform c = storedReply (s.perform c) := by
  cases c with
  | clear =>
    rw [Panel.perform, onBank_map _ _ fun _ => none, stored_bank, Ram.on_clear _ hcells, perform,
      clear]
    cases s.bank.clear with
    | error e => rfl
    | ok later => rfl
  | pixel x y =>
    rw [Panel.perform, onBank_map, stored_bank, stored_width, Ram.on_read, perform, pixel]
    cases s.bank.read (y * s.width + x) with
    | error e => rfl
    | ok b => rfl
  | xorPixel x y => exact xorPixel_stored s x y
  | resize width height =>
    rw [Panel.perform, Panel.resize, onBank_map _ _ fun _ => none, Ram.on_resize, perform, resize]
    cases Ram.ofSize (width * height) with
    | error e => rfl
    | ok later => rfl

/-! ## What a call comes to -/

section Calls

variable [Capacity]

/-- The outcomes of a call. -/
inductive Outcome (s : Screen) (c : Panel.Call) : Prop where
  /-- The dimensions and the size of the bank stay, and a failure changes nothing. -/
  | kept (hc : ∀ width height, c ≠ .resize width height)
      (hframe : (s.perform c).2.frame = s.frame)
      (hfailed : ∀ e, (s.perform c).1 = .error e → (s.perform c).2 = s)
  /-- There is a bank for other dimensions. -/
  | resized (width height : Int) (hc : c = .resize width height ∧ ¬ c.Refused) (bank : Ram)
      (hsize : (bank.size : Int) = width * height ∧ bank.size ≤ Capacity.cells)
      (hdone : s.perform c = (.ok none, { s with width := width, height := height, bank := bank }))
  /-- There is none, and the bank stays. -/
  | refused (width height : Int) (hc : c = .resize width height ∧ c.Refused) (e : Failure)
      (hdone : s.perform c = (.error e, { s with width := width, height := height }))

theorem outcome (s : Screen) (c : Panel.Call) : s.Outcome c := by
  cases c with
  | clear =>
    refine .kept nofun ?_ ?_
    · rw [perform]
      cases h : s.clear with
      | ok t => exact clear_frame h
      | error e => rfl
    · intro e
      rw [perform]
      cases s.clear with
      | ok t => exact nofun
      | error e => exact fun _ => rfl
  | pixel x y => exact .kept nofun rfl fun _ _ => rfl
  | xorPixel x y =>
    refine .kept nofun ?_ ?_
    · rw [perform]
      cases h : s.xorPixel x y with
      | ok r => exact xorPixel_frame h
      | error e => rfl
    · intro e
      rw [perform]
      cases s.xorPixel x y with
      | ok r => exact nofun
      | error e => exact fun _ => rfl
  | resize width height =>
    have hsettles := Ram.ofSize_settles (width * height)
    cases h : Ram.ofSize (width * height) with
    | ok bank =>
      rw [h] at hsettles
      obtain ⟨hsize, hle⟩ := hsettles
      refine .resized width height ⟨rfl, ?_⟩ bank ⟨hsize, hle⟩ ?_
      · unfold Panel.Call.Refused
        omega
      · rw [perform, resize, h]
        rfl
    | error e =>
      refine .refused width height ⟨rfl, ?_⟩ e ?_
      · by_contra hgranted
        obtain ⟨hpos, hle⟩ := not_or.mp hgranted
        obtain ⟨bank, hbank, -⟩ := Ram.exists_ofSize (Int.not_lt.mp hpos) (Int.not_lt.mp hle)
        rw [hbank] at h
        cases h
      · rw [perform, resize, h]
        rfl

theorem filled_perform {s : Screen} {c : Panel.Call} (hs : s.Filled) (hc : ¬ c.Refused) :
    (s.perform c).2.Filled := by
  cases s.outcome c with
  | kept _ hframe => exact filled_of_frame hframe hs
  | resized width height _ bank hsize hdone =>
    rw [hdone]
    exact hsize.1
  | refused _ _ hrefused => exact absurd hrefused.2 hc

theorem size_perform {s : Screen} {c : Panel.Call} (hcells : s.bank.size ≤ Capacity.cells) :
    (s.perform c).2.bank.size ≤ Capacity.cells := by
  cases s.outcome c with
  | kept _ hframe => exact (congrArg Frame.cells hframe).trans_le hcells
  | resized _ _ _ _ hsize hdone =>
    rw [hdone]
    exact hsize.2
  | refused _ _ _ _ hdone =>
    rw [hdone]
    exact hcells

/-- After a change of size that is refused, the dimensions do not tell of the cells. -/
theorem not_filled_of_refused {s : Screen} {c : Panel.Call} (hcells : s.bank.size ≤ Capacity.cells)
    (hc : c.Refused) : ¬ (s.perform c).2.Filled := by
  cases s.outcome c with
  | kept hother =>
    obtain ⟨width, height, hresize⟩ := hc.isResize
    exact absurd hresize (hother width height)
  | resized _ _ hgranted => exact absurd hc hgranted.2
  | refused width height hrefused _ hdone =>
    obtain ⟨rfl, harea⟩ := hrefused
    intro hfilled
    rw [hdone] at hfilled
    have hsame : (s.bank.size : Int) = width * height := hfilled
    unfold Panel.Call.Refused at harea
    omega

/-! ## Runs of calls -/

theorem after_stored {s : Screen} (hcells : s.bank.size ≤ Capacity.cells)
    (calls : List Panel.Call) :
    s.stored.after calls = (s.after calls).stored ∧
      (s.after calls).bank.size ≤ Capacity.cells := by
  induction calls generalizing s with
  | nil => exact ⟨rfl, hcells⟩
  | cons c calls ih =>
    have hrest := ih (size_perform (c := c) hcells)
    rw [Panel.after_cons, perform_stored s hcells c]
    exact hrest

theorem filled_after {s : Screen} (hs : s.Filled) {calls : List Panel.Call}
    (hcalls : ∀ c ∈ calls, ¬ c.Refused) : (s.after calls).Filled := by
  induction calls generalizing s with
  | nil => exact hs
  | cons c calls ih =>
    obtain ⟨hc, hrest⟩ := List.forall_mem_cons.mp hcalls
    exact ih (filled_perform hs hc) hrest

end Calls

end Screen

namespace Panel

open Screen

section Law

variable [Capacity]

theorem make_eq (width height : Int) (wraps : Bool) :
    make width height wraps = (Screen.ofSize width height wraps).map Screen.stored := by
  rw [make, resize, onBank_map _ _ fun _ => none, Ram.on_resize, Screen.ofSize]
  cases Ram.ofSize (width * height) with
  | error e => rfl
  | ok bank => rfl

/-- A new panel is what is stored of a new screen, and there is one if there is memory for it. -/
theorem exists_make {width height : Int} (hpos : 0 ≤ width * height)
    (hmemory : width * height ≤ Capacity.cells) (wraps : Bool) :
    ∃ s : Screen, make width height wraps = .ok s.stored ∧ s.Filled ∧
      s.bank.size ≤ Capacity.cells := by
  obtain ⟨bank, hbank, hsize⟩ := Ram.exists_ofSize hpos hmemory
  refine ⟨⟨width, height, wraps, bank⟩, ?_, hsize, ?_⟩
  · rw [make_eq, Screen.ofSize, hbank]
    rfl
  · exact Int.ofNat_le.mp (hsize.trans_le hmemory)

section Stored

variable {s : Screen} (hcells : s.bank.size ≤ Capacity.cells) {c : Call}

include hcells

/-- A call that fails has changed nothing, unless it is a change of size that is refused. -/
theorem perform_failed (hc : ¬ c.Refused) {e : Failure} (h : (s.stored.perform c).1 = .error e) :
    (s.stored.perform c).2 = s.stored := by
  rw [perform_stored s hcells c] at h ⊢
  have hfailed : (s.perform c).1 = .error e := by
    revert h
    rw [storedReply]
    cases (s.perform c).1 with
    | ok answer => exact nofun
    | error e' => exact fun h => congrArg _ (Except.error.inj h)
  cases s.outcome c with
  | kept _ _ hunchanged => exact congrArg Screen.stored (hunchanged e hfailed)
  | resized _ _ _ _ _ hdone =>
    rw [hdone] at hfailed
    cases hfailed
  | refused _ _ hrefused => exact absurd hrefused.2 hc

/-- A change of size that is refused has stored the dimensions and nothing else. -/
theorem perform_refused {width height : Int} (hc : (Call.resize width height).Refused) :
    ∃ e, s.stored.perform (.resize width height) =
      (.error e, { s.stored with width := width, height := height, area := width * height }) := by
  rw [perform_stored s hcells]
  cases s.outcome (.resize width height) with
  | kept hother => exact absurd rfl (hother width height)
  | resized _ _ hgranted => exact absurd hc hgranted.2
  | refused _ _ hrefused e hdone =>
    cases hrefused.1
    exact ⟨e, congrArg storedReply hdone⟩

/-- A change of size that is granted makes the dimensions tell of the cells, whatever they told of
before. -/
theorem agrees_of_granted {width height : Int} (hc : ¬ (Call.resize width height).Refused) :
    (s.stored.perform (.resize width height)).2.Agrees := by
  rw [perform_stored s hcells]
  refine agrees_stored_iff.mpr ?_
  cases s.outcome (.resize width height) with
  | kept hother => exact absurd rfl (hother width height)
  | resized _ _ _ _ hsize hdone =>
    rw [hdone]
    exact hsize.1
  | refused _ _ hrefused => exact absurd hrefused.2 hc

/-- A call that is no refused change of size does what it should. -/
theorem keeps_stored (hs : s.Filled) (hc : ¬ c.Refused) : s.stored.Keeps c := by
  refine ⟨?_, ?_⟩
  · rw [perform_stored s hcells]
    exact agrees_stored_iff.mpr (filled_perform hs hc)
  · intro e he
    rw [perform_failed hcells hc he]
    exact ⟨rfl, rfl, rfl⟩

end Stored

/-- The dimensions of a screen as it is stored tell of its cells, through any calls, those that fail
included, exactly if no change of size is refused. That is so on a host with whatever memory, for a
screen of any dimensions that there is memory for. Whatever the calls came to, the number of pixels
is that of the dimensions and the bank beneath is intact. Of the further calls, one that is no
refused change of size leaves everything as it was where it fails. One that is refused has stored
the dimensions and nothing else, and the next change of size that is granted makes up for it. -/
theorem geometry_law_iff_not_refused {width height : Int} (hpos : 0 ≤ width * height)
    (hmemory : width * height ≤ Capacity.cells) (wraps : Bool) (calls : List Call) :
    ∃ p, make width height wraps = .ok p ∧ p.Agrees ∧
    (p.KeepsThrough calls ↔ ∀ c ∈ calls, ¬ c.Refused) ∧
    (p.after calls).area = (p.after calls).width * (p.after calls).height ∧
    (p.after calls).bank.Intact ∧
    (∀ c : Call, ¬ c.Refused → ∀ e, ((p.after calls).perform c).1 = .error e →
      ((p.after calls).perform c).2 = p.after calls) ∧
    (∀ width height, (Call.resize width height).Refused →
      ∃ e, (p.after calls).perform (.resize width height) =
        (.error e,
          { p.after calls with width := width, height := height, area := width * height })) ∧
    (∀ width height, ¬ (Call.resize width height).Refused →
      ((p.after calls).perform (.resize width height)).2.Agrees) := by
  obtain ⟨s, hmade, hfilled, hcells⟩ := exists_make hpos hmemory wraps
  obtain ⟨hafter, hcellsAfter⟩ := after_stored hcells calls
  refine ⟨s.stored, hmade, agrees_stored_iff.mpr hfilled, ⟨?_, ?_⟩, ?_⟩
  · -- the calls before the refused one have left some screen, and that is all that is needed
    intro hkeeps c hmem hc
    obtain ⟨past, rest, rfl⟩ := List.append_of_mem hmem
    obtain ⟨hpast, hcellsPast⟩ := after_stored hcells past
    have hagrees := (hkeeps past c ⟨rest, List.append_cons .. ▸ rfl⟩).agrees
    rw [hpast, perform_stored _ hcellsPast] at hagrees
    exact not_filled_of_refused hcellsPast hc (agrees_stored_iff.mp hagrees)
  · intro hcalls past c hupto
    have hgranted : ∀ d ∈ past ++ [c], ¬ d.Refused := fun d hd => hcalls d (hupto.subset hd)
    obtain ⟨hpast, hc⟩ := List.forall_mem_append.mp hgranted
    obtain ⟨hstored, hcellsPast⟩ := after_stored hcells past
    rw [hstored]
    exact keeps_stored hcellsPast (filled_after hfilled hpast) (hc c List.mem_cons_self)
  · rw [hafter]
    exact ⟨rfl, Bank.intact_stored _, fun _ => perform_failed hcellsAfter,
      fun _ _ => perform_refused hcellsAfter, fun _ _ => agrees_of_granted hcellsAfter⟩

end Law

/-- A panel of two rows of three pixels. -/
def sixPixels : Panel := ⟨3, 2, 6, true, ⟨[0, 0, 0, 0, 0, 0], 6, 5⟩⟩

attribute [local instance] Capacity.least in
theorem geometry_law_iff_not_refused_six :
    make 3 2 true = .ok sixPixels ∧
      sixPixels.KeepsThrough [.xorPixel 4 1, .pixel 9 9, .resize 2 2, .clear] ∧
      ¬ sixPixels.KeepsThrough [.xorPixel 4 1, .resize (-1) 2] := by
  have hmade : make 3 2 true = .ok sixPixels := by decide +kernel
  have hpos : (0 : Int) ≤ 3 * 2 := by decide
  have hmemory : (3 : Int) * 2 ≤ Capacity.cells := by decide
  refine ⟨hmade, ?_, ?_⟩
  · obtain ⟨p, hp, -, hregular, -⟩ := geometry_law_iff_not_refused hpos hmemory true
      [.xorPixel 4 1, .pixel 9 9, .resize 2 2, .clear]
    cases hmade.symm.trans hp
    have hgranted : (2 : Int) * 2 ≤ Capacity.cells := by decide
    refine hregular.mpr ?_
    simpa [Call.Refused] using hgranted
  · obtain ⟨p, hp, -, hrefused, -⟩ := geometry_law_iff_not_refused hpos hmemory true
      [.xorPixel 4 1, .resize (-1) 2]
    cases hmade.symm.trans hp
    intro hkeeps
    exact hrefused.mp hkeeps (.resize (-1) 2) (by simp) (Or.inl (by decide))

attribute [local instance] Capacity.least in
/-- A change of size that is refused leaves its dimensions behind, with the cells of the ones
before. -/
theorem refused_resize_breaks_law :
    make 3 2 true = .ok sixPixels ∧
      sixPixels.perform (.resize (-1) 2) = (.error (.misuse .valueOutOfRange),
        { sixPixels with width := -1, height := 2, area := -2 }) ∧
      ¬ sixPixels.Keeps (.resize (-1) 2) := by
  have hdone : sixPixels.perform (.resize (-1) 2) = (.error (.misuse .valueOutOfRange),
      { sixPixels with width := -1, height := 2, area := -2 }) := by decide +kernel
  refine ⟨by decide +kernel, hdone, ?_⟩
  intro hkeeps
  have hcells := hkeeps.agrees.cells
  rw [hdone] at hcells
  cases hcells

end Panel

end Chip8
