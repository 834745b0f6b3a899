/-
  Which texts are keymaps. Codes are read field by field and judged by their values, so fields that
  spell new codes are passed over (`readCodes_append`), and the reading stops at the first field
  that spells no integer or a code from before. A text is a keymap exactly if it has sixteen fields
  that spell different integers, and then each guest key has the code that its field spells
  (`keymap_law`).
-/
import Chip8.Proofs.Keystrokes
import Chip8.Proofs.Numerals
import Mathlib.Data.List.FinRange
namespace Chip8.Host.Keymap

open Text

/-! ## Faults -/

/-- A field is at fault: it spells no integer, or the same one as an earlier field. -/
def FaultAt (fs : List (List Char)) (k : Nat) : KeymapError → Prop
  | .wrongCount => False
  | .notInteger => ∃ f, fs[k]? = some f ∧ ∀ n, ¬ Spells f n
  | .duplicate => ∃ f n, fs[k]? = some f ∧ Spells f n ∧
      ∃ j < k, ∃ g, fs[j]? = some g ∧ Spells g n

/-- What is wrong with some fields first: their number, and else the first field at fault. -/
def FirstProblem (fs : List (List Char)) (e : KeymapError) : Prop :=
  (fs.length ≠ keyCount ∧ e = .wrongCount) ∨
    (fs.length = keyCount ∧ ∃ k, FaultAt fs k e ∧ ∀ j < k, ∀ e', ¬ FaultAt fs j e')

/-- The message that some fields call for. -/
inductive Complaint (fs : List (List Char)) : String → Prop where
  | count (h : fs.length ≠ keyCount) : Complaint fs
      "Incorrect number of keys defined -- 16 required.  Use commas to split numbers"
  | notInteger (h : fs.length = keyCount) (k : Nat) (hfault : FaultAt fs k .notInteger)
      (hfirst : ∀ j < k, ∀ e, ¬ FaultAt fs j e) : Complaint fs
      "Defined keys are not all integer values"
  | duplicate (h : fs.length = keyCount) (k : Nat) (hfault : FaultAt fs k .duplicate)
      (hfirst : ∀ j < k, ∀ e, ¬ FaultAt fs j e) : Complaint fs "Duplicate keys defined"

/-- The fields of a text spell an integer for each guest key, and all of them are different. -/
structure Assigns (text : String) (codes : Key → Int) : Prop where
  count : (fields ',' text.toList).length = keyCount
  spelled : ∀ (key : Key) f, (fields ',' text.toList)[key.val]? = some f → Spells f (codes key)
  distinct : Function.Injective codes

/-! ## Reading codes -/

/-- The integers that fields spell, one for each. -/
def ReadAs (fs : List (List Char)) (codes : List Int) : Prop :=
  fs.map (readInteger? .decimal) = codes.map some

section ReadAs

variable {fs : List (List Char)} {codes : List Int} (hread : ReadAs fs codes)

include hread

theorem ReadAs.getElem? {k : Nat} {f : List Char} (hf : fs[k]? = some f) :
    ∃ n, codes[k]? = some n ∧ ∀ n', Spells f n' ↔ n' = n := by
  obtain ⟨n, hn, hsame⟩ := getElem?_of_map_eq hread hf
  refine ⟨n, hn, ?_⟩
  intro n'
  rw [← readInteger?_eq_some_iff, hsame, Option.some.injEq, eq_comm]

/-- Fields that are read as new codes are passed over. -/
theorem readCodes_append {seen : List Int} (hnew : (codes.reverse ++ seen).Nodup)
    (rest : List (List Char)) :
    readCodes seen (fs ++ rest) = readCodes (codes.reverse ++ seen) rest := by
  induction fs generalizing seen codes with
  | nil =>
    cases codes with
    | nil => rfl
    | cons c codes => cases hread
  | cons f fs ih =>
    cases codes with
    | nil => cases hread
    | cons c codes =>
      obtain ⟨hf, hfs⟩ := List.cons.inj hread
      have hassoc : (c :: codes).reverse ++ seen = codes.reverse ++ c :: seen := by
        rw [List.reverse_cons, List.append_assoc, List.singleton_append]
      rw [hassoc] at hnew ⊢
      have hc : c ∉ seen := (List.nodup_cons.mp (List.nodup_append.mp hnew).2.1).1
      rw [List.cons_append, readCodes, hf]
      dsimp only
      rw [if_neg hc]
      exact ih hfs hnew

theorem readCodes_ok (hnodup : codes.Nodup) : readCodes [] fs = .ok codes := by
  have happend := @readCodes_append _ _ hread [] (by simpa using hnodup) []
  rw [List.append_nil, List.append_nil] at happend
  rw [happend, readCodes, List.reverse_reverse]

/-- Fields that are read as different codes have none at fault. -/
theorem not_faultAt (hnodup : codes.Nodup) (k : Nat) (e : KeymapError) : ¬ FaultAt fs k e := by
  cases e with
  | wrongCount => exact id
  | notInteger =>
    rintro ⟨f, hf, hnone⟩
    obtain ⟨n, -, hn⟩ := hread.getElem? hf
    exact hnone n ((hn n).mpr rfl)
  | duplicate =>
    rintro ⟨f, n, hf, hfn, j, hj, g, hg, hgn⟩
    obtain ⟨a, ha, hfa⟩ := hread.getElem? hf
    obtain ⟨b, hb, hgb⟩ := hread.getElem? hg
    have hsame : codes[k]? = codes[j]? := by rw [ha, hb, ← (hfa n).mp hfn, ← (hgb n).mp hgn]
    have hlt := (List.getElem?_eq_some_iff.mp ha).1
    have := (List.getElem?_inj hlt hnodup).mp hsame
    omega

end ReadAs

/-- Whether a field is at fault does not depend on the fields after it. -/
theorem faultAt_of_append {fs rest : List (List Char)} {k : Nat} {e : KeymapError}
    (hk : k < fs.length) (h : FaultAt (fs ++ rest) k e) : FaultAt fs k e := by
  have hfront : ∀ j ≤ k, (fs ++ rest)[j]? = fs[j]? :=
    fun j hj => List.getElem?_append_left (hj.trans_lt hk)
  cases e with
  | wrongCount => exact h
  | notInteger =>
    obtain ⟨f, hf, hnone⟩ := h
    exact ⟨f, hfront k (Nat.le_refl k) ▸ hf, hnone⟩
  | duplicate =>
    obtain ⟨f, n, hf, hfn, j, hj, g, hg, hgn⟩ := h
    exact ⟨f, n, hfront k (Nat.le_refl k) ▸ hf, hfn, j, hj, g, hfront j hj.le ▸ hg, hgn⟩

/-- Fields are all read as different codes, or the reading stops at the first one at fault. -/
theorem readAs_or_stops {fs : List (List Char)} {codes : List Int} (hread : ReadAs fs codes)
    (hnodup : codes.Nodup) (rest : List (List Char)) :
    (∃ codes, ReadAs (fs ++ rest) codes ∧ codes.Nodup) ∨
      ∃ k e, FaultAt (fs ++ rest) k e ∧ (∀ j < k, ∀ e', ¬ FaultAt (fs ++ rest) j e') ∧
        readCodes [] (fs ++ rest) = .error e := by
  -- the fields that were read so far, all as different codes, grow by one in each step
  induction rest generalizing fs codes with
  | nil => exact Or.inl ⟨codes, by rwa [List.append_nil], hnodup⟩
  | cons f rest ih =>
    have happend := @readCodes_append _ _ hread [] (by simpa using hnodup) (f :: rest)
    rw [List.append_nil] at happend
    have hfield : (fs ++ f :: rest)[fs.length]? = some f := by simp
    have hearlier : ∀ j < fs.length, ∀ e', ¬ FaultAt (fs ++ f :: rest) j e' :=
      fun j hj e' h => not_faultAt hread hnodup j e' (faultAt_of_append hj h)
    cases hf : readInteger? .decimal f with
    | none =>
      refine Or.inr ⟨fs.length, .notInteger, ⟨f, hfield, ?_⟩, hearlier, ?_⟩
      · intro n hn
        rw [readInteger?_eq_some_iff.mpr hn] at hf
        cases hf
      · rw [happend, readCodes, hf]
    | some n =>
      by_cases hn : n ∈ codes
      · -- the earlier field with this code may be spelled in another way
        obtain ⟨j, hcode⟩ := List.mem_iff_getElem?.mp hn
        have hj : j < fs.length := length_of_map_eq hread ▸ (List.getElem?_eq_some_iff.mp hcode).1
        have hg := List.getElem?_eq_getElem hj
        obtain ⟨m, hm, hspells⟩ := hread.getElem? hg
        have hsame : n = m := Option.some.inj (hcode.symm.trans hm)
        refine Or.inr ⟨fs.length, .duplicate, ⟨f, n, hfield, readInteger?_eq_some_iff.mp hf, j, hj,
          fs[j], (List.getElem?_append_left hj).trans hg, (hspells n).mpr hsame⟩, hearlier, ?_⟩
        rw [happend, readCodes, hf]
        dsimp only
        rw [if_pos (List.mem_reverse.mpr hn)]
      · have hmore : ReadAs (fs ++ [f]) (codes ++ [n]) := by
          rw [ReadAs, List.map_append, List.map_append, hread, List.map_singleton, hf]
          rfl
        have hdistinct : (codes ++ [n]).Nodup :=
          List.nodup_append_comm.mpr (List.nodup_cons.mpr ⟨hn, hnodup⟩)
        have hall := ih hmore hdistinct
        rwa [List.append_assoc, List.singleton_append] at hall

/-! ## The law -/

section OfText

variable {text : String} (hcount : (fields ',' text.toList).length = keyCount)

include hcount

theorem ofText_of_readCodes_error {e : KeymapError}
    (h : readCodes [] (fields ',' text.toList) = .error e) : ofText text = .error e := by
  rw [ofText, if_neg (not_not.mpr hcount), h]
  rfl

theorem ofText_of_readAs {codes : List Int} (hread : ReadAs (fields ',' text.toList) codes)
    (hnodup : codes.Nodup) :
    ∃ m, ofText text = .ok m ∧ ∀ key : Key, codes[key.val]? = some (m.hostKey key) := by
  have hsize : codes.length = keyCount := (length_of_map_eq hread).trans hcount
  refine ⟨⟨Vector.ofFn fun k => codes.getD k.val 0⟩, ?_, ?_⟩
  · rw [ofText, if_neg (not_not.mpr hcount), readCodes_ok hread hnodup]
    rfl
  · intro key
    have hkey : key.val < codes.length := by rw [hsize]; exact key.isLt
    rw [hostKey_ofFn, List.getD_eq_getElem?_getD, List.getElem?_eq_getElem hkey]
    rfl

end OfText

/-- The codes of a keymap that is accepted are those that the fields spell. -/
theorem assigns_hostKey {text : String} {codes : List Int} {m : Keymap}
    (hcount : (fields ',' text.toList).length = keyCount)
    (hread : ReadAs (fields ',' text.toList) codes) (hm : ofText text = .ok m)
    (hcodes : ∀ key : Key, codes[key.val]? = some (m.hostKey key)) : Assigns text m.hostKey := by
  refine ⟨hcount, ?_, fun i j => hostKey_injective hm⟩
  intro key f hf
  obtain ⟨n, hn, hspells⟩ := hread.getElem? hf
  rw [hspells, ← Option.some.injEq, ← hn]
  exact (hcodes key).symm

section Assigns

variable {text : String} {codes : Key → Int} (h : Assigns text codes)

include h

theorem Assigns.field (key : Key) :
    ∃ f, (fields ',' text.toList)[key.val]? = some f ∧ Spells f (codes key) := by
  have hkey : key.val < (fields ',' text.toList).length := by rw [h.count]; exact key.isLt
  have hf := List.getElem?_eq_getElem hkey
  exact ⟨_, hf, h.spelled key _ hf⟩

theorem Assigns.unique {codes' : Key → Int} (h' : Assigns text codes') : codes = codes' := by
  funext key
  obtain ⟨f, hf, hcode⟩ := h.field key
  exact Spells.unique hcode (h'.spelled key f hf)

theorem Assigns.readAs : ReadAs (fields ',' text.toList) (List.ofFn codes) := by
  apply List.ext_getElem?
  intro j
  rw [List.getElem?_map, List.getElem?_map, List.getElem?_ofFn]
  split
  · rename_i hj
    obtain ⟨f, hf, hcode⟩ := h.field ⟨j, hj⟩
    rw [hf, Option.map_some, Option.map_some, readInteger?_eq_some_iff.mpr hcode]
  · rename_i hj
    rw [List.getElem?_eq_none (by rw [h.count]; omega)]
    rfl

theorem Assigns.not_firstProblem (e : KeymapError) :
    ¬ FirstProblem (fields ',' text.toList) e := by
  rintro (⟨hwrong, -⟩ | ⟨-, k, hfault, -⟩)
  · exact hwrong h.count
  · exact not_faultAt h.readAs (List.nodup_ofFn.mpr h.distinct) k e hfault

end Assigns

theorem FaultAt.not_duplicate {fs : List (List Char)} {k : Nat} (h : FaultAt fs k .notInteger) :
    ¬ FaultAt fs k .duplicate := by
  obtain ⟨f, hf, hnone⟩ := h
  rintro ⟨g, n, hg, hn, -⟩
  rw [hf, Option.some.injEq] at hg
  exact hnone n (hg ▸ hn)

theorem FaultAt.unique {fs : List (List Char)} {k : Nat} {e e' : KeymapError} (h : FaultAt fs k e)
    (h' : FaultAt fs k e') : e = e' := by
  cases e with
  | wrongCount => exact h.elim
  | notInteger =>
    cases e' with
    | wrongCount => exact h'.elim
    | notInteger => rfl
    | duplicate => exact absurd h' h.not_duplicate
  | duplicate =>
    cases e' with
    | wrongCount => exact h'.elim
    | notInteger => exact absurd h h'.not_duplicate
    | duplicate => rfl

theorem FirstProblem.unique {fs : List (List Char)} {e e' : KeymapError} (h : FirstProblem fs e)
    (h' : FirstProblem fs e') : e = e' := by
  obtain ⟨hwrong, rfl⟩ | ⟨hcount, k, hfault, hfirst⟩ := h
  · obtain ⟨-, rfl⟩ | ⟨hcount, -⟩ := h'
    · rfl
    · exact absurd hcount hwrong
  · obtain ⟨hwrong, -⟩ | ⟨-, k', hfault', hfirst'⟩ := h'
    · exact absurd hcount hwrong
    · have hsame : k = k' := by
        rcases Nat.lt_trichotomy k k' with hlt | heq | hgt
        · exact absurd hfault (hfirst' k hlt e)
        · exact heq
        · exact absurd hfault' (hfirst k' hgt e')
      exact FaultAt.unique hfault (hsame ▸ hfault')

theorem complaint_iff {fs : List (List Char)} {message : String} :
    Complaint fs message ↔ ∃ e, FirstProblem fs e ∧ e.message = message := by
  constructor
  · intro h
    cases h with
    | count hwrong => exact ⟨.wrongCount, Or.inl ⟨hwrong, rfl⟩, rfl⟩
    | notInteger hcount k hfault hfirst =>
      exact ⟨.notInteger, Or.inr ⟨hcount, k, hfault, hfirst⟩, rfl⟩
    | duplicate hcount k hfault hfirst =>
      exact ⟨.duplicate, Or.inr ⟨hcount, k, hfault, hfirst⟩, rfl⟩
  · rintro ⟨e, ⟨hwrong, rfl⟩ | ⟨hcount, k, hfault, hfirst⟩, rfl⟩
    · exact .count hwrong
    · cases e with
      | wrongCount => exact hfault.elim
      | notInteger => exact .notInteger hcount k hfault hfirst
      | duplicate => exact .duplicate hcount k hfault hfirst

/-- What a text comes to: a keymap whose codes are those that the fields spell, or its first
problem. -/
theorem ofText_outcome (text : String) :
    (∃ m, ofText text = .ok m ∧ Assigns text m.hostKey) ∨
      ∃ e, ofText text = .error e ∧ FirstProblem (fields ',' text.toList) e := by
  by_cases hcount : (fields ',' text.toList).length = keyCount
  · obtain ⟨codes, hread, hnodup⟩ | ⟨k, e, hfault, hfirst, hstops⟩ :=
      @readAs_or_stops [] [] rfl List.nodup_nil (fields ',' text.toList)
    · obtain ⟨m, hm, hcodes⟩ := ofText_of_readAs hcount hread hnodup
      exact Or.inl ⟨m, hm, assigns_hostKey hcount hread hm hcodes⟩
    · exact Or.inr ⟨e, ofText_of_readCodes_error hcount hstops,
        Or.inr ⟨hcount, k, hfault, hfirst⟩⟩
  · refine Or.inr ⟨.wrongCount, ?_, Or.inl ⟨hcount, rfl⟩⟩
    rw [ofText, if_pos hcount]

theorem assigns_of_ok {text : String} {m : Keymap} (h : ofText text = .ok m) :
    Assigns text m.hostKey := by
  obtain ⟨m', hm', hassigns⟩ | ⟨e, he, -⟩ := ofText_outcome text
  · rw [h, Except.ok.injEq] at hm'
    exact hm' ▸ hassigns
  · rw [h] at he
    cases he

theorem firstProblem_of_error {text : String} {e : KeymapError} (h : ofText text = .error e) :
    FirstProblem (fields ',' text.toList) e := by
  obtain ⟨m, hm, -⟩ | ⟨e', he', hproblem⟩ := ofText_outcome text
  · rw [h] at hm
    cases hm
  · rw [h, Except.error.injEq] at he'
    exact he' ▸ hproblem

theorem error_iff_firstProblem {text : String} {e : KeymapError} :
    ofText text = .error e ↔ FirstProblem (fields ',' text.toList) e := by
  refine ⟨firstProblem_of_error, ?_⟩
  intro hproblem
  cases h : ofText text with
  | ok m => exact absurd hproblem ((assigns_of_ok h).not_firstProblem e)
  | error e' => rw [FirstProblem.unique hproblem (firstProblem_of_error h)]

/-- The law of keymaps. A text is a keymap exactly if it has one field for each guest key and the
fields spell different integers. Then the host keys and the guest keys are matched one to one, each
guest key with the integer of its field, and no key is held. Any other text has a first problem, and
is refused with the message for it: a wrong number of fields, and else the first field that spells
no integer or the integer of an earlier field, however the two are spelled. -/
theorem keymap_law (text : String) :
    ((∃ m, ofText text = .ok m) ↔ ∃ codes, Assigns text codes) ∧
    (∀ m codes, ofText text = .ok m → Assigns text codes →
      (∀ code key, m.keyOf? code = some key ↔ codes key = code) ∧
      (∀ key, (Keyboard.ofKeymap m).isHeld key = false)) ∧
    (∀ message, (∃ e, ofText text = .error e ∧ e.message = message) ↔
      Complaint (fields ',' text.toList) message) := by
  refine ⟨⟨?_, ?_⟩, ?_, ?_⟩
  · rintro ⟨m, hm⟩
    exact ⟨m.hostKey, assigns_of_ok hm⟩
  · rintro ⟨codes, hassigns⟩
    cases h : ofText text with
    | ok m => exact ⟨m, rfl⟩
    | error e => exact absurd (firstProblem_of_error h) (hassigns.not_firstProblem e)
  · intro m codes hm hassigns
    rw [hassigns.unique (assigns_of_ok hm)]
    exact ⟨fun code key => keyOf?_eq_some_iff hm, fun key => Vector.getElem_replicate key.isLt⟩
  · intro message
    simp only [complaint_iff, error_iff_firstProblem]

end Chip8.Host.Keymap
