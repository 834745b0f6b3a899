/-
  Keystrokes of the host and the keys of the guest. A guest key should be held exactly while its
  host key is, that is if the last stroke of the host key was downward. Events act on the keyboard
  one after another, wherever a batch ends (`processAll_eq`), and what is left of a guest key is the
  last stroke of its host key that was heard (`isHeld_processAll`). All strokes are heard but for
  the upward ones of Escape and P, which are commands. So the keys follow their strokes in just
  those keymaps that leave these two alone (`key_follows_strokes_iff`).
-/
import Chip8.Host.Keyboard
import Mathlib.Data.List.Nodup
namespace Chip8.Host

/-! ## Keymaps -/

namespace Keymap

/-- The host key of a guest key. -/
def hostKey (m : Keymap) (key : Key) : Int := m.codes.get key

theorem hostKey_ofFn (f : Key → Int) (key : Key) : hostKey ⟨Vector.ofFn f⟩ key = f key :=
  Vector.getElem_ofFn key.isLt

/-- The codes that are read are all different, and there is one for each field. -/
theorem readCodes_eq_ok {seen codes : List Int} {fs : List (List Char)} (hseen : seen.Nodup)
    (h : readCodes seen fs = .ok codes) :
    codes.Nodup ∧ codes.length = seen.length + fs.length := by
  induction fs generalizing seen with
  | nil =>
    cases h
    exact ⟨List.nodup_reverse.mpr hseen, List.length_reverse⟩
  | cons f fs ih =>
    unfold readCodes at h
    split at h
    · cases h
    · rename_i code _
      split at h
      · cases h
      · rename_i hnew
        obtain ⟨hnodup, hlength⟩ := ih (List.nodup_cons.mpr ⟨hnew, hseen⟩) h
        refine ⟨hnodup, ?_⟩
        simp only [List.length_cons] at hlength ⊢
        omega

/-- The codes of a keymap that is accepted are sixteen different ones. -/
theorem ofText_eq_ok {text : String} {m : Keymap} (h : ofText text = .ok m) :
    ∃ codes : List Int, codes.Nodup ∧ codes.length = keyCount ∧
      ∀ key : Key, codes[key.val]? = some (m.hostKey key) := by
  unfold ofText at h
  dsimp only at h
  split at h
  · cases h
  · rename_i hcount
    cases hcodes : readCodes [] (Text.fields ',' text.toList) with
    | error e =>
      rw [hcodes] at h
      cases h
    | ok codes =>
      rw [hcodes] at h
      have hm : Keymap.mk (Vector.ofFn fun k => codes.getD k.val 0) = m := Except.ok.inj h
      obtain ⟨hnodup, hlength⟩ := readCodes_eq_ok List.nodup_nil hcodes
      have hsize : codes.length = keyCount := by
        rw [hlength, List.length_nil, Nat.zero_add]
        exact Decidable.not_not.mp hcount
      refine ⟨codes, hnodup, hsize, ?_⟩
      intro key
      have hkey : key.val < codes.length := by rw [hsize]; exact key.isLt
      rw [← hm, hostKey_ofFn, List.getD_eq_getElem?_getD, List.getElem?_eq_getElem hkey]
      rfl

/-- In a keymap that is accepted, two guest keys have two host keys. -/
theorem hostKey_injective {text : String} {m : Keymap} (h : ofText text = .ok m) {i j : Key}
    (hij : m.hostKey i = m.hostKey j) : i = j := by
  obtain ⟨codes, hnodup, hsize, hcodes⟩ := ofText_eq_ok h
  have hi : i.val < codes.length := by rw [hsize]; exact i.isLt
  have hsame : codes[i.val]? = codes[j.val]? := by rw [hcodes, hcodes, hij]
  exact Fin.ext ((List.getElem?_inj hi hnodup).mp hsame)

/-- The guest key of a host key is the one that has its code. -/
theorem keyOf?_eq_some_iff {text : String} {m : Keymap} (h : ofText text = .ok m) {code : Int}
    {key : Key} : m.keyOf? code = some key ↔ m.hostKey key = code := by
  rw [keyOf?, Vector.finIdxOf?, Option.map_eq_some_iff]
  constructor
  · rintro ⟨k, hk, rfl⟩
    exact (Array.finIdxOf?_eq_some_iff.mp hk).1
  · intro hcode
    have hsize : m.codes.toArray.size = keyCount := m.codes.size_toArray
    refine ⟨key.cast hsize.symm, Array.finIdxOf?_eq_some_iff.mpr ⟨hcode, ?_⟩, rfl⟩
    intro j hj hsame
    have hkey : j.cast hsize = key := hostKey_injective h (Eq.trans hsame hcode.symm)
    rw [← hkey] at hj
    exact Nat.lt_irrefl _ hj

end Keymap

/-! ## Strokes -/

/-- The host keys that are commands when they go up. -/
def IsCommand (code : Int) : Prop := code = escapeCode ∨ code = pauseCode

instance (code : Int) : Decidable (IsCommand code) := inferInstanceAs (Decidable (_ ∨ _))

namespace DesktopEvent

/-- The stroke of a host key that an event is: downward (true) or upward. -/
def stroke? (code : Int) : DesktopEvent → Option Bool
  | .keyDown c => if c = code then some true else none
  | .keyUp c => if c = code then some false else none
  | .closed | .other => none

/-- The press or the release that a keyboard makes of an event. -/
def press? : DesktopEvent → Option (Int × Bool)
  | .keyDown c => some (c, true)
  | .keyUp c => if IsCommand c then none else some (c, false)
  | .closed | .other => none

/-- The stroke of a host key that an event is, if a keyboard hears of it. -/
def heard? (code : Int) (e : DesktopEvent) : Option Bool :=
  (e.stroke? code).filter fun down => down || !decide (IsCommand code)

/-- A keyboard hears of a host key by the presses and releases of that key. -/
theorem press?_bind (e : DesktopEvent) (code : Int) :
    (e.press?.bind fun p => if code = p.1 then some p.2 else none) = e.heard? code := by
  cases e with
  | keyDown c =>
    simp only [press?, heard?, stroke?, Option.bind_some]
    by_cases hc : c = code
    · rw [if_pos hc, if_pos hc.symm]
      rfl
    · rw [if_neg hc, if_neg (Ne.symm hc)]
      rfl
  | keyUp c =>
    simp only [press?, heard?, stroke?]
    by_cases hc : c = code
    · subst hc
      by_cases hcommand : IsCommand c
      · rw [if_pos hcommand, if_pos rfl, decide_eq_true hcommand]
        rfl
      · rw [if_neg hcommand, if_pos rfl, decide_eq_false hcommand]
        exact if_pos rfl
    · rw [if_neg hc]
      split
      · rfl
      · exact if_neg (Ne.symm hc)
  | closed | other => rfl

/-- A keyboard hears of every stroke of a host key that is no command. -/
theorem heard?_of_not_isCommand {code : Int} (h : ¬ IsCommand code) (e : DesktopEvent) :
    e.heard? code = e.stroke? code := by
  rw [heard?, decide_eq_false h]
  cases e.stroke? code with
  | none => rfl
  | some down => cases down <;> rfl

/-- Of a host key that is a command, it hears of the downward strokes only. -/
theorem heard?_of_isCommand {code : Int} (h : IsCommand code) (e : DesktopEvent) :
    e.heard? code = if e = .keyDown code then some true else none := by
  rw [heard?, decide_eq_true h]
  cases e with
  | keyDown c =>
    rw [stroke?]
    by_cases hc : c = code
    · rw [if_pos hc, if_pos (congrArg keyDown hc)]
      rfl
    · rw [if_neg hc, if_neg (fun he => hc (keyDown.inj he))]
      rfl
  | keyUp c =>
    have hne : keyUp c ≠ keyDown code := by
      intro he
      cases he
    rw [if_neg hne, stroke?]
    split <;> rfl
  | closed | other => rfl

end DesktopEvent

/-- The last stroke of a host key. -/
def lastStroke? (code : Int) (events : List DesktopEvent) : Option Bool :=
  (events.filterMap (·.stroke? code)).getLast?

theorem Batch.presses_addEvent (b : Batch) (e : DesktopEvent) :
    (b.addEvent e).presses = b.presses ++ e.press?.toList := by
  cases e with
  | keyDown c => rfl
  | keyUp c =>
    rw [addEvent, DesktopEvent.press?]
    by_cases hescape : c = escapeCode
    · have hcommand : IsCommand c := Or.inl hescape
      rw [if_pos hescape, if_pos hcommand]
      exact (List.append_nil _).symm
    · by_cases hpause : c = pauseCode
      · have hcommand : IsCommand c := Or.inr hpause
        rw [if_neg hescape, if_pos hpause, if_pos hcommand]
        exact (List.append_nil _).symm
      · have hcommand : ¬ IsCommand c := not_or.mpr ⟨hescape, hpause⟩
        rw [if_neg hescape, if_neg hpause, if_neg hcommand]
        rfl
  | closed | other => exact (List.append_nil _).symm

theorem Batch.presses_foldl (b : Batch) (events : List DesktopEvent) :
    (events.foldl addEvent b).presses = b.presses ++ events.filterMap DesktopEvent.press? := by
  induction events generalizing b with
  | nil => exact (List.append_nil _).symm
  | cons e events ih =>
    rw [List.foldl_cons, ih, presses_addEvent, List.append_assoc, List.filterMap_cons]
    cases e.press? with
    | none => rfl
    | some p => rfl

/-! ## Keyboards -/

namespace Keyboard

/-- Whether a guest key is held. -/
def isHeld (k : Keyboard) (key : Key) : Bool := k.held.get key

theorem isHeld_set (k : Keyboard) (other key : Key) (down : Bool) :
    isHeld { k with held := k.held.set other.val down other.isLt } key =
      if other = key then down else k.isHeld key := by
  have hset : isHeld { k with held := k.held.set other.val down other.isLt } key =
      if other.val = key.val then down else k.isHeld key :=
    Vector.getElem_set other.isLt key.isLt
  rw [hset]
  by_cases hsame : other = key
  · rw [if_pos hsame, if_pos (congrArg Fin.val hsame)]
  · rw [if_neg hsame, if_neg (fun hval => hsame (Fin.ext hval))]

/-- The keyboard after the events of a batch. -/
def process (k : Keyboard) (events : List DesktopEvent) : Keyboard :=
  k.apply (Batch.ofEvents events)

/-- The keyboard after some batches. -/
def processAll (k : Keyboard) (batches : List (List DesktopEvent)) : Keyboard :=
  batches.foldl process k

/-- The keyboard after some presses and releases. -/
def pressAll (k : Keyboard) (presses : List (Int × Bool)) : Keyboard :=
  presses.foldl (fun k p => (k.press p.1 p.2).2) k

theorem keymap_press (k : Keyboard) (code : Int) (down : Bool) :
    (k.press code down).2.keymap = k.keymap := by
  unfold press
  split <;> rfl

theorem keymap_pressAll (k : Keyboard) (presses : List (Int × Bool)) :
    (k.pressAll presses).keymap = k.keymap := by
  induction presses generalizing k with
  | nil => rfl
  | cons p presses ih => exact (ih _).trans (k.keymap_press p.1 p.2)

theorem pressAll_append (k : Keyboard) (ps qs : List (Int × Bool)) :
    k.pressAll (ps ++ qs) = (k.pressAll ps).pressAll qs := List.foldl_append

theorem process_eq (k : Keyboard) (events : List DesktopEvent) :
    k.process events = k.pressAll (events.filterMap DesktopEvent.press?) := by
  rw [process, apply, Batch.ofEvents, Batch.presses_foldl]
  rfl

/-- Where a batch ends makes no difference to the keys. -/
theorem processAll_eq (k : Keyboard) (batches : List (List DesktopEvent)) :
    k.processAll batches = k.process batches.flatten := by
  induction batches generalizing k with
  | nil => rfl
  | cons events batches ih =>
    have hcons : k.processAll (events :: batches) = (k.process events).processAll batches := rfl
    rw [hcons, ih, List.flatten_cons]
    simp only [process_eq, List.filterMap_append, pressAll_append]

/-! ## What is left of a key -/

section Held

variable {text : String} {m : Keymap} (h : Keymap.ofText text = .ok m)

include h

/-- A press or a release of a host key sets its guest key, and no other. -/
theorem isHeld_press {k : Keyboard} (hk : k.keymap = m) (p : Int × Bool) (key : Key) :
    (k.press p.1 p.2).2.isHeld key = if m.hostKey key = p.1 then p.2 else k.isHeld key := by
  have hkey := @Keymap.keyOf?_eq_some_iff text m h p.1
  unfold press
  rw [hk]
  cases hcode : m.keyOf? p.1 with
  | none =>
    have hother : m.hostKey key ≠ p.1 := by
      intro hsame
      rw [hkey.mpr hsame] at hcode
      cases hcode
    rw [if_neg hother]
  | some other =>
    refine (isHeld_set k other key p.2).trans ?_
    by_cases hsame : other = key
    · rw [if_pos hsame, if_pos (hkey.mp (hsame ▸ hcode))]
    · have hcodes : m.hostKey key ≠ p.1 := by
        intro hmine
        rw [hkey.mpr hmine, Option.some.injEq] at hcode
        exact hsame hcode.symm
      rw [if_neg hsame, if_neg hcodes]

/-- A key is left as its host key was last heard of. -/
theorem isHeld_pressAll {k : Keyboard} (hk : k.keymap = m) (presses : List (Int × Bool))
    (key : Key) :
    (k.pressAll presses).isHeld key =
      ((presses.filterMap fun p => if m.hostKey key = p.1 then some p.2 else none).getLast?).getD
        (k.isHeld key) := by
  induction presses generalizing k with
  | nil => rfl
  | cons p presses ih =>
    have hkeymap : (k.press p.1 p.2).2.keymap = m := (k.keymap_press p.1 p.2).trans hk
    have hcons : k.pressAll (p :: presses) = (k.press p.1 p.2).2.pressAll presses := rfl
    rw [hcons, ih hkeymap, isHeld_press h hk, List.filterMap_cons]
    by_cases hcode : m.hostKey key = p.1
    · rw [if_pos hcode, if_pos hcode, List.getLast?_cons]
      rfl
    · rw [if_neg hcode, if_neg hcode]

theorem isHeld_processAll (batches : List (List DesktopEvent)) (key : Key) :
    ((ofKeymap m).processAll batches).isHeld key = true ↔
      (batches.flatten.filterMap (·.heard? (m.hostKey key))).getLast? = some true := by
  have hstart : (ofKeymap m).isHeld key = false := Vector.getElem_replicate key.isLt
  rw [processAll_eq, process_eq, isHeld_pressAll h rfl, List.filterMap_filterMap, hstart]
  simp only [DesktopEvent.press?_bind, Option.getD_eq_iff, Bool.false_eq_true, and_false, or_false]

end Held

/-! ## The law -/

/-- After every batch the guest key is held if the last stroke of its host key was downward, and not
held if it was upward or if there was none. -/
def KeyFollows (m : Keymap) (key : Key) : Prop :=
  ∀ batches : List (List DesktopEvent),
    ((ofKeymap m).processAll batches).isHeld key = true ↔
      lastStroke? (m.hostKey key) batches.flatten = some true

section Law

variable {text : String} {m : Keymap} (h : Keymap.ofText text = .ok m) {key : Key}

include h

theorem keyFollows_of_not_isCommand (hcode : ¬ IsCommand (m.hostKey key)) : KeyFollows m key := by
  intro batches
  rw [isHeld_processAll h]
  simp only [DesktopEvent.heard?_of_not_isCommand hcode, lastStroke?]

/-- The key of a command is held from the first downward stroke on. -/
theorem isHeld_of_isCommand (hcode : IsCommand (m.hostKey key))
    (batches : List (List DesktopEvent)) :
    ((ofKeymap m).processAll batches).isHeld key = true ↔
      .keyDown (m.hostKey key) ∈ batches.flatten := by
  rw [isHeld_processAll h]
  simp only [DesktopEvent.heard?_of_isCommand hcode]
  constructor
  · intro hlast
    obtain ⟨e, he, hdown⟩ := List.mem_filterMap.mp (List.mem_of_getLast? hlast)
    by_cases hstroke : e = .keyDown (m.hostKey key)
    · exact hstroke ▸ he
    · rw [if_neg hstroke] at hdown
      cases hdown
  · intro hmem
    have hheard : true ∈ batches.flatten.filterMap fun e =>
        if e = .keyDown (m.hostKey key) then some true else none :=
      List.mem_filterMap.mpr ⟨_, hmem, if_pos rfl⟩
    have hall : ∀ down ∈ batches.flatten.filterMap fun e =>
        if e = .keyDown (m.hostKey key) then some true else none, down = true := by
      intro down hdown
      obtain ⟨e, -, he⟩ := List.mem_filterMap.mp hdown
      split at he
      · exact (Option.some.inj he).symm
      · cases he
    have hsome := List.getLast?_eq_some_getLast (List.ne_nil_of_mem hheard)
    rw [hsome, hall _ (List.getLast_mem _)]

/-- A host key that has no guest key is not heard of. -/
theorem press_unmapped {code : Int} (hcode : code ∉ m.codes) {k : Keyboard} (hk : k.keymap = m)
    (down : Bool) : (k.press code down).2 = k := by
  have hnone : k.keymap.keyOf? code = none := by
    rw [hk, Option.eq_none_iff_forall_ne_some]
    intro key hkey
    rw [Keymap.keyOf?_eq_some_iff h] at hkey
    exact hcode (hkey ▸ Vector.getElem_mem key.isLt)
  rw [press, hnone]

/-- An event of such a host key makes no difference, wherever in a batch it comes. -/
theorem process_unmapped {code : Int} (hcode : code ∉ m.codes) {k : Keyboard} (hk : k.keymap = m)
    {e : DesktopEvent} (he : e = .keyDown code ∨ e = .keyUp code)
    (before after : List DesktopEvent) :
    k.process (before ++ e :: after) = k.process (before ++ after) := by
  simp only [process_eq, List.filterMap_append, List.filterMap_cons, pressAll_append]
  cases hpress : e.press? with
  | none => rfl
  | some p =>
    have hp : p.1 = code := by
      rcases he with rfl | rfl
      · cases hpress
        rfl
      · rw [DesktopEvent.press?] at hpress
        split at hpress
        · cases hpress
        · cases hpress
          rfl
    have hkeymap := (k.keymap_pressAll (before.filterMap DesktopEvent.press?)).trans hk
    exact congrArg (pressAll · _) (press_unmapped h (hp ▸ hcode) hkeymap p.2)

end Law

/-- A key follows its strokes exactly if its host key is no command. In a keymap that is accepted,
let the user do anything, batch by batch. A guest key whose host key is neither Escape nor P is held
after every batch exactly if the last stroke of its host key was downward. One whose host key is
Escape or P is never released: it is held from the first downward stroke on, and so there are
strokes that it does not follow. Events of host keys that have no guest key change nothing. -/
theorem key_follows_strokes_iff {text : String} {m : Keymap} (h : Keymap.ofText text = .ok m) :
    (∀ key : Key, KeyFollows m key ↔
      ¬ (m.hostKey key = escapeCode ∨ m.hostKey key = pauseCode)) ∧
    (∀ key : Key, m.hostKey key = escapeCode ∨ m.hostKey key = pauseCode →
      ∀ batches : List (List DesktopEvent),
        ((ofKeymap m).processAll batches).isHeld key = true ↔
          .keyDown (m.hostKey key) ∈ batches.flatten) ∧
    (∀ code, code ∉ m.codes → ∀ k : Keyboard, k.keymap = m →
      ∀ e : DesktopEvent, e = .keyDown code ∨ e = .keyUp code →
        ∀ before after, k.process (before ++ e :: after) = k.process (before ++ after)) := by
  refine ⟨?_, ?_, ?_⟩
  · intro key
    refine ⟨?_, keyFollows_of_not_isCommand h⟩
    intro hfollows hcommand
    -- the key goes down and up again
    have hheld := (isHeld_of_isCommand h hcommand
      [[.keyDown (m.hostKey key), .keyUp (m.hostKey key)]]).mpr List.mem_cons_self
    have hlast := (hfollows _).mp hheld
    simp only [lastStroke?, DesktopEvent.stroke?, List.flatten_cons, List.flatten_nil,
      List.append_nil, List.filterMap_cons, List.filterMap_nil, if_true] at hlast
    cases hlast
  · intro key hcommand batches
    exact isHeld_of_isCommand h hcommand batches
  · intro code hcode k hk e he before after
    exact process_unmapped h hcode hk he before after

/-- A keymap text with P for key 0, and the codes 1 to 15 for the others. -/
def pauseText : String := "112,1,2,3,4,5,6,7,8,9,10,11,12,13,14,15"

/-- The keymap of that text. -/
def pauseKeymap : Keymap := ⟨#v[112, 1, 2, 3, 4, 5, 6, 7, 8, 9, 10, 11, 12, 13, 14, 15]⟩

theorem ofText_pauseText : Keymap.ofText pauseText = .ok pauseKeymap := by decide +kernel

theorem key_follows_strokes_iff_pause :
    Keymap.ofText pauseText = .ok pauseKeymap ∧ KeyFollows pauseKeymap 1 ∧
      ¬ KeyFollows pauseKeymap 0 ∧
      (ofKeymap pauseKeymap).process [.keyDown 49, .keyDown 15] =
        (ofKeymap pauseKeymap).process [.keyDown 15] := by
  obtain ⟨hfollows, -, hunmapped⟩ := key_follows_strokes_iff ofText_pauseText
  refine ⟨ofText_pauseText, (hfollows 1).mpr (by decide), ?_, ?_⟩
  · intro hkey
    exact (hfollows 0).mp hkey (by decide)
  · exact hunmapped 49 (by decide +kernel) _ rfl _ (Or.inl rfl) [] [.keyDown 15]

/-- The key of P stays held when P has gone down and up again. -/
theorem pause_key_stays_held :
    Keymap.ofText pauseText = .ok pauseKeymap ∧
      ((ofKeymap pauseKeymap).processAll [[.keyDown 112, .keyUp 112]]).isHeld 0 = true ∧
      lastStroke? (pauseKeymap.hostKey 0) [.keyDown 112, .keyUp 112] = some false ∧
      ¬ KeyFollows pauseKeymap 0 := by
  have hstrokes : ((ofKeymap pauseKeymap).processAll
        [[.keyDown 112, .keyUp 112]]).isHeld 0 = true ∧
      lastStroke? (pauseKeymap.hostKey 0) [.keyDown 112, .keyUp 112] = some false := by
    decide +kernel
  obtain ⟨hheld, hlast⟩ := hstrokes
  refine ⟨ofText_pauseText, hheld, hlast, ?_⟩
  intro hfollows
  have hdown := (hfollows [[.keyDown 112, .keyUp 112]]).mp hheld
  rw [List.flatten_singleton, hlast] at hdown
  cases hdown

end Keyboard

end Chip8.Host
