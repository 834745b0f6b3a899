/-
  The integers of texts. A decimal integer has a grammar: blanks, a sign, digits of any script with
  one underscore at most between two of them, and blanks again. A text is read as an integer exactly
  if it is spelled by this grammar, and then as the value of the spelling, whichever it is
  (`readInteger?_eq_some_iff`). In either radix an integer is less than the base to the power of the
  length of its text (`readInteger?_lt`).
-/
import Chip8.Text.Integer
import Mathlib.Data.List.DropRight
import Mathlib.Data.Nat.Digits.Defs
namespace Chip8.Text

/-! ## How large an integer is -/

theorem Hex.digitValue?_lt {c : Char} {d : Nat} (h : digitValue? c = some d) : d < 16 := by
  unfold digitValue? at h
  dsimp only at h
  split at h
  · cases h
    omega
  · split at h
    · cases h
      omega
    · split at h
      · cases h
        omega
      · cases h

theorem Radix.digitValue?_lt {r : Radix} {c : Char} {d : Nat} (h : r.digitValue? c = some d) :
    d < r.base := by
  cases hdecimal : decimalValue? c with
  | some e =>
    have he := decimalValue?_lt hdecimal
    cases r with
    | decimal =>
      simp only [digitValue?, hdecimal, Option.some.injEq] at h
      exact h ▸ he
    | hexadecimal =>
      simp only [digitValue?, hdecimal, Option.some.injEq] at h
      exact Nat.lt_trans (h ▸ he) (by decide)
  | none =>
    cases r with
    | decimal =>
      simp only [digitValue?, hdecimal] at h
      cases h
    | hexadecimal =>
      simp only [digitValue?, hdecimal] at h
      exact Hex.digitValue?_lt h

theorem Radix.digitValue?_decimal (c : Char) : Radix.decimal.digitValue? c = decimalValue? c := by
  cases hdecimal : decimalValue? c with
  | some d => simp only [digitValue?, hdecimal]
  | none => simp only [digitValue?, hdecimal]

theorem digitValues?_bounds {r : Radix} {cs : List Char} {ds : List Nat}
    (h : digitValues? r cs = some ds) : ds.length ≤ cs.length ∧ ∀ d ∈ ds, d < r.base := by
  fun_induction digitValues? r cs generalizing ds with
  | case1 => cases h
  | case2 => cases h
  | case3 c d hd =>
    cases h
    exact ⟨Nat.le_refl _, List.forall_mem_singleton.mpr (Radix.digitValue?_lt hd)⟩
  | case4 c d rest hd ih =>
    obtain ⟨es, hes, rfl⟩ := Option.map_eq_some_iff.mp h
    obtain ⟨hlength, hbounds⟩ := ih hes
    refine ⟨?_, List.forall_mem_cons.mpr ⟨Radix.digitValue?_lt hd, hbounds⟩⟩
    simp only [List.length_cons]
    omega
  | case5 c d c' rest _ hd ih =>
    obtain ⟨es, hes, rfl⟩ := Option.map_eq_some_iff.mp h
    obtain ⟨hlength, hbounds⟩ := ih hes
    refine ⟨?_, List.forall_mem_cons.mpr ⟨Radix.digitValue?_lt hd, hbounds⟩⟩
    simp only [List.length_cons] at hlength ⊢
    omega

/-- The number of some digits is that of the library, which has the least significant one first. -/
theorem ofDigitValues_eq (base : Nat) (ds : List Nat) :
    ofDigitValues base ds = Nat.ofDigits base ds.reverse := by
  have hfold : ∀ n, ds.foldl (fun n d => n * base + d) n =
      Nat.ofDigits base ds.reverse + n * base ^ ds.length := by
    induction ds with
    | nil => simp
    | cons d ds ih =>
      intro n
      rw [List.foldl_cons, ih, List.reverse_cons, Nat.ofDigits_append, Nat.ofDigits_singleton,
        List.length_reverse, List.length_cons]
      ring
  rw [ofDigitValues, hfold, Nat.zero_mul, Nat.add_zero]

theorem ofDigitValues_lt {base : Nat} (hbase : 1 < base) {ds : List Nat}
    (h : ∀ d ∈ ds, d < base) : ofDigitValues base ds < base ^ ds.length := by
  rw [ofDigitValues_eq, ← List.length_reverse]
  exact Nat.ofDigits_lt_base_pow_length hbase fun d hd => h d (List.mem_reverse.mp hd)

theorem Radix.one_lt_base (r : Radix) : 1 < r.base := by
  cases r with
  | decimal => decide
  | hexadecimal => decide

theorem length_dropRadixMark_le (r : Radix) (cs : List Char) :
    (dropRadixMark r cs).length ≤ cs.length := by
  unfold dropRadixMark
  split
  · split
    · split
      · simp only [List.length_cons]
        omega
      · simp only [List.length_cons]
        omega
    · exact Nat.le_refl _
  · exact Nat.le_refl _

theorem readMagnitude?_lt {r : Radix} {cs : List Char} {n : Nat}
    (h : readMagnitude? r cs = some n) : n < r.base ^ cs.length := by
  cases hdigits : digitValues? r (dropRadixMark r cs) with
  | none =>
    rw [readMagnitude?, hdigits] at h
    cases h
  | some ds =>
    obtain ⟨hlength, hbounds⟩ := digitValues?_bounds hdigits
    have hmark := length_dropRadixMark_le r cs
    have hlt := ofDigitValues_lt r.one_lt_base hbounds
    have hpow := Nat.pow_le_pow_right (Nat.zero_lt_of_lt r.one_lt_base) (hlength.trans hmark)
    have hn : n = ofDigitValues r.base ds := by
      rw [readMagnitude?, hdigits] at h
      cases r with
      | hexadecimal => exact (Option.some.inj h).symm
      | decimal =>
        dsimp only [Radix.maxDigits?] at h
        split at h
        · exact (Option.some.inj h).symm
        · cases h
    omega

theorem length_trimBlanks_le (cs : List Char) : (trimBlanks cs).length ≤ cs.length := by
  have hback := (List.dropWhile_sublist isBlank (l := (cs.dropWhile isBlank).reverse)).length_le
  have hfront := (List.dropWhile_sublist isBlank (l := cs)).length_le
  rw [List.length_reverse] at hback
  rw [trimBlanks, List.length_reverse]
  omega

/-! ## Signs -/

/-- A sign, which may be left out. -/
inductive Sign where
  | unsigned
  | plus
  | minus

namespace Sign

/-- The text of a sign. -/
def text : Sign → List Char
  | .unsigned => []
  | .plus => ['+']
  | .minus => ['-']

/-- A number with a sign. -/
def apply : Sign → Nat → Int
  | .unsigned, n | .plus, n => n
  | .minus, n => -(n : Int)

theorem apply_le (s : Sign) (n : Nat) : s.apply n ≤ n := by
  cases s with
  | unsigned | plus => exact Int.le_refl _
  | minus =>
    show -(n : Int) ≤ n
    omega

/-- The sign in front of a text, and the rest. -/
def split : List Char → Sign × List Char
  | '-' :: cs => (.minus, cs)
  | '+' :: cs => (.plus, cs)
  | cs => (.unsigned, cs)

theorem text_append_split (cs : List Char) : (split cs).1.text ++ (split cs).2 = cs := by
  unfold split
  split
  · rfl
  · rfl
  · rfl

theorem split_append (s : Sign) {c : Char} (hc : c ≠ '-' ∧ c ≠ '+') (cs : List Char) :
    split (s.text ++ c :: cs) = (s, c :: cs) := by
  cases s with
  | plus => rfl
  | minus => rfl
  | unsigned =>
    refine split.eq_3 _ ?_ ?_
    · intro rest h
      exact hc.1 (List.cons.inj h).1
    · intro rest h
      exact hc.2 (List.cons.inj h).1

end Sign

/-- An integer is read as a number with the sign in front of it. -/
theorem readInteger?_eq (r : Radix) (text : List Char) :
    readInteger? r text =
      (readMagnitude? r (Sign.split (trimBlanks text)).2).map
        (Sign.split (trimBlanks text)).1.apply := by
  unfold readInteger?
  split
  · rename_i cs hcs
    rw [hcs, Sign.split]
    cases readMagnitude? r cs with
    | none => rfl
    | some n => rfl
  · rename_i cs hcs
    rw [hcs]
    rfl
  · rename_i hminus hplus
    rw [Sign.split.eq_3 _ hminus hplus]
    rfl

theorem readInteger?_lt {r : Radix} {text : List Char} {n : Int}
    (h : readInteger? r text = some n) : n < (r.base ^ text.length : Nat) := by
  rw [readInteger?_eq] at h
  obtain ⟨m, hm, rfl⟩ := Option.map_eq_some_iff.mp h
  have hsplit := congrArg List.length (Sign.text_append_split (trimBlanks text))
  have htrim := length_trimBlanks_le text
  have hlength : (Sign.split (trimBlanks text)).2.length ≤ text.length := by
    rw [List.length_append] at hsplit
    omega
  have hpow := Nat.pow_le_pow_right (Nat.zero_lt_of_lt r.one_lt_base) hlength
  have hlt := (readMagnitude?_lt hm).trans_le hpow
  have hsign := (Sign.split (trimBlanks text)).1.apply_le m
  omega

/-! ## Spellings -/

/-- A decimal digit of some script. -/
structure Digit where
  char : Char
  value : Nat
  decimal : decimalValue? char = some value

/-- A digit after the first, before which an underscore may stand. -/
structure Figure where
  joined : Bool
  digit : Digit

/-- A way to spell an integer in decimal. -/
structure Numeral where
  before : List Char
  sign : Sign
  first : Digit
  others : List Figure
  after : List Char
  /-- The digits are no more than an integer may have. -/
  short : others.length < 4300
  blank_before : ∀ c ∈ before, isBlank c = true
  blank_after : ∀ c ∈ after, isBlank c = true

def Figure.text (f : Figure) : List Char :=
  if f.joined then ['_', f.digit.char] else [f.digit.char]

namespace Numeral

/-- The text of digits. -/
def body (first : Digit) (others : List Figure) : List Char :=
  first.char :: others.flatMap Figure.text

/-- The values of digits. -/
def values (first : Digit) (others : List Figure) : List Nat :=
  first.value :: others.map (·.digit.value)

/-- The number that digits stand for. -/
def magnitude (first : Digit) (others : List Figure) : Nat :=
  Nat.ofDigits 10 (values first others).reverse

/-- The text of a spelling. -/
def text (w : Numeral) : List Char :=
  w.before ++ (w.sign.text ++ body w.first w.others) ++ w.after

/-- The integer that is spelled. -/
def value (w : Numeral) : Int := w.sign.apply (magnitude w.first w.others)

end Numeral

/-! ## Blanks and digits -/

/-- The code points of the blanks. -/
def blankCodes : List Nat :=
  [9, 10, 11, 12, 13, 0x20, 0x85, 0xA0, 0x1680, 0x2000, 0x2001, 0x2002, 0x2003, 0x2004, 0x2005,
   0x2006, 0x2007, 0x2008, 0x2009, 0x200A, 0x2028, 0x2029, 0x202F, 0x205F, 0x3000]

theorem mem_blankCodes {c : Char} (h : isBlank c = true) : c.toNat ∈ blankCodes := by
  simp only [isBlank, Bool.or_eq_true, Bool.and_eq_true, decide_eq_true_eq, beq_iff_eq] at h
  simp only [blankCodes, List.mem_cons, List.not_mem_nil, or_false]
  omega

/-- No blank is a digit. -/
theorem decimalValue?_of_isBlank {c : Char} (h : isBlank c = true) : decimalValue? c = none := by
  have hnone : ∀ n ∈ blankCodes, (digitZeros.find? fun z => z ≤ n && n < z + 10) = none := by
    decide +kernel
  rw [decimalValue?, hnone _ (mem_blankCodes h)]
  rfl

namespace Digit

theorem ne (d : Digit) {c : Char} (h : decimalValue? c = none) : d.char ≠ c := by
  intro hc
  have hd := d.decimal
  rw [hc, h] at hd
  cases hd

theorem digitValue?_char (d : Digit) : Radix.decimal.digitValue? d.char = some d.value :=
  (Radix.digitValue?_decimal d.char).trans d.decimal

theorem not_isBlank (d : Digit) : isBlank d.char = false := by
  by_contra h
  exact d.ne (decimalValue?_of_isBlank ((Bool.not_eq_false _).mp h)) rfl

end Digit

/-- A text that neither begins nor ends with a blank is what is left when blanks around it are
removed. -/
theorem trimBlanks_surrounded {before core after : List Char}
    (hbefore : ∀ c ∈ before, isBlank c = true) (hafter : ∀ c ∈ after, isBlank c = true)
    {c d : Char} {rest init : List Char} (hhead : core = c :: rest) (hc : isBlank c = false)
    (hlast : core = init ++ [d]) (hd : isBlank d = false) :
    trimBlanks (before ++ core ++ after) = core := by
  have hfront : (before ++ core ++ after).dropWhile isBlank = core ++ after := by
    rw [List.append_assoc, List.dropWhile_append_of_pos hbefore, hhead, List.cons_append,
      List.dropWhile_cons_of_neg (by simp [hc])]
  have hback : core.rdropWhile isBlank = core := by
    rw [hlast]
    exact List.rdropWhile_concat_neg _ _ _ (by simp [hd])
  rw [trimBlanks, hfront, List.reverse_append, List.dropWhile_append_of_pos]
  · exact hback
  · intro b hb
    exact hafter b (List.mem_reverse.mp hb)

/-- A text is its trimmed text with blanks around it. -/
theorem exists_blanks (cs : List Char) :
    ∃ before after : List Char, (∀ c ∈ before, isBlank c = true) ∧
      (∀ c ∈ after, isBlank c = true) ∧ cs = before ++ trimBlanks cs ++ after := by
  refine ⟨cs.takeWhile isBlank, (cs.dropWhile isBlank).rtakeWhile isBlank,
    fun c hc => List.mem_takeWhile_imp hc, fun c hc => List.mem_rtakeWhile_imp hc, ?_⟩
  have htrim : trimBlanks cs = (cs.dropWhile isBlank).rdropWhile isBlank := rfl
  rw [htrim, List.append_assoc, List.rdropWhile_append_rtakeWhile,
    List.takeWhile_append_dropWhile]

namespace Numeral

/-! ## Reading digits -/

theorem body_cons (first : Digit) (f : Figure) (others : List Figure) :
    body first (f :: others) =
      if f.joined then first.char :: '_' :: body f.digit others
      else first.char :: body f.digit others := by
  rw [body, List.flatMap_cons, Figure.text]
  split
  · rfl
  · rfl

/-- Digits end with a digit. -/
theorem exists_last (first : Digit) (others : List Figure) :
    ∃ (init : List Char) (d : Digit), body first others = init ++ [d.char] := by
  induction others generalizing first with
  | nil => exact ⟨[], first, rfl⟩
  | cons f others ih =>
    obtain ⟨init, d, hlast⟩ := ih f.digit
    rw [body_cons, hlast]
    split
    · exact ⟨first.char :: '_' :: init, d, rfl⟩
    · exact ⟨first.char :: init, d, rfl⟩

/-- Digits with a sign in front of them begin with no blank. -/
theorem exists_head (s : Sign) (first : Digit) (others : List Figure) :
    ∃ (c : Char) (rest : List Char), s.text ++ body first others = c :: rest ∧
      isBlank c = false := by
  cases s with
  | unsigned => exact ⟨first.char, _, rfl, first.not_isBlank⟩
  | plus => exact ⟨'+', _, rfl, rfl⟩
  | minus => exact ⟨'-', _, rfl, rfl⟩

/-- What is left of a spelling without the blanks around it. -/
theorem trimBlanks_text (w : Numeral) :
    trimBlanks w.text = w.sign.text ++ body w.first w.others := by
  obtain ⟨c, rest, hhead, hc⟩ := exists_head w.sign w.first w.others
  obtain ⟨init, d, hbody⟩ := exists_last w.first w.others
  have hlast : w.sign.text ++ body w.first w.others = (w.sign.text ++ init) ++ [d.char] := by
    rw [hbody, List.append_assoc]
  exact trimBlanks_surrounded w.blank_before w.blank_after hhead hc hlast d.not_isBlank

theorem digitValues?_body (first : Digit) (others : List Figure) :
    digitValues? .decimal (body first others) = some (values first others) := by
  induction others generalizing first with
  | nil => exact digitValues?.eq_3 _ _ _ first.digitValue?_char
  | cons f others ih =>
    rw [body_cons]
    split
    · rw [digitValues?.eq_4 _ _ _ _ first.digitValue?_char, ih]
      rfl
    · have hnext := ih f.digit
      rw [body] at hnext ⊢
      rw [digitValues?.eq_5 _ _ _ _ _ (f.digit.ne (by decide)) first.digitValue?_char, hnext]
      rfl

theorem exists_body {cs : List Char} {ds : List Nat} (h : digitValues? .decimal cs = some ds) :
    ∃ first others, cs = body first others ∧ ds = values first others := by
  fun_induction digitValues? .decimal cs generalizing ds with
  | case1 => cases h
  | case2 => cases h
  | case3 c d hd =>
    cases h
    exact ⟨⟨c, d, Radix.digitValue?_decimal c ▸ hd⟩, [], rfl, rfl⟩
  | case4 c d rest hd ih =>
    -- an underscore, so the next digit is joined by it
    obtain ⟨es, hes, rfl⟩ := Option.map_eq_some_iff.mp h
    obtain ⟨first, others, rfl, rfl⟩ := ih hes
    exact ⟨⟨c, d, Radix.digitValue?_decimal c ▸ hd⟩, ⟨true, first⟩ :: others, rfl, rfl⟩
  | case5 c d c' rest _ hd ih =>
    obtain ⟨es, hes, rfl⟩ := Option.map_eq_some_iff.mp h
    obtain ⟨first, others, hbody, rfl⟩ := ih hes
    refine ⟨⟨c, d, Radix.digitValue?_decimal c ▸ hd⟩, ⟨false, first⟩ :: others, ?_, rfl⟩
    rw [hbody]
    rfl

theorem readMagnitude?_eq_some_iff {cs : List Char} {n : Nat} :
    readMagnitude? .decimal cs = some n ↔
      ∃ first others, cs = body first others ∧ others.length < 4300 ∧
        n = magnitude first others := by
  have hread : readMagnitude? .decimal cs =
      (digitValues? .decimal cs).bind fun ds =>
        if ds.length ≤ 4300 then some (ofDigitValues 10 ds) else none := by
    unfold readMagnitude?
    have hmark : dropRadixMark .decimal cs = cs := by
      unfold dropRadixMark
      rfl
    rw [hmark]
    cases digitValues? .decimal cs with
    | none => rfl
    | some ds => rfl
  rw [hread, Option.bind_eq_some_iff]
  constructor
  · rintro ⟨ds, hds, hn⟩
    obtain ⟨first, others, rfl, rfl⟩ := exists_body hds
    split at hn
    · rename_i hlength
      rw [values, List.length_cons, List.length_map] at hlength
      have hmagnitude : n = magnitude first others := by
        rw [magnitude, ← ofDigitValues_eq, Option.some.inj hn]
      exact ⟨first, others, rfl, hlength, hmagnitude⟩
    · cases hn
  · rintro ⟨first, others, rfl, hlength, rfl⟩
    refine ⟨_, digitValues?_body first others, ?_⟩
    rw [if_pos, magnitude, ofDigitValues_eq]
    rw [values, List.length_cons, List.length_map]
    exact hlength

end Numeral

/-- A text spells an integer. -/
def Spells (cs : List Char) (n : Int) : Prop := ∃ w : Numeral, w.text = cs ∧ w.value = n

/-- A text is read as an integer exactly if it spells it. -/
theorem readInteger?_eq_some_iff {cs : List Char} {n : Int} :
    readInteger? .decimal cs = some n ↔ Spells cs n := by
  rw [readInteger?_eq, Option.map_eq_some_iff]
  constructor
  · rintro ⟨m, hm, rfl⟩
    obtain ⟨first, others, hbody, hshort, rfl⟩ := Numeral.readMagnitude?_eq_some_iff.mp hm
    obtain ⟨before, after, hbefore, hafter, hcs⟩ := exists_blanks cs
    refine ⟨⟨before, (Sign.split (trimBlanks cs)).1, first, others, after, hshort, hbefore,
      hafter⟩, ?_, rfl⟩
    rw [Numeral.text, ← hbody, Sign.text_append_split]
    exact hcs.symm
  · rintro ⟨w, rfl, rfl⟩
    have hsign : Sign.split (trimBlanks w.text) = (w.sign, Numeral.body w.first w.others) := by
      rw [w.trimBlanks_text]
      exact Sign.split_append _ ⟨w.first.ne (by decide), w.first.ne (by decide)⟩ _
    rw [hsign]
    exact ⟨_, Numeral.readMagnitude?_eq_some_iff.mpr ⟨w.first, w.others, rfl, w.short, rfl⟩, rfl⟩

example : readInteger? .decimal " +٠_٤٩ ".toList = some 49 := by decide +kernel

theorem Spells.unique {cs : List Char} {n m : Int} (h : Spells cs n) (h' : Spells cs m) :
    n = m := by
  rw [← readInteger?_eq_some_iff] at h h'
  exact Option.some.inj (h.symm.trans h')

/-! ## Texts read in turn -/

section Turns

variable {α β γ : Type} {read : α → γ} {done : β → γ} {texts : List α} {results : List β}
  (h : texts.map read = results.map done)

include h

theorem length_of_map_eq : results.length = texts.length := by
  have hlength := congrArg List.length h
  rw [List.length_map, List.length_map] at hlength
  exact hlength.symm

/-- The result at the place of a text is what this text is read as. -/
theorem getElem?_of_map_eq {k : Nat} {text : α} (ht : texts[k]? = some text) :
    ∃ result, results[k]? = some result ∧ read text = done result := by
  have hk := congrArg (·[k]?) h
  simp only [List.getElem?_map, ht, Option.map_some] at hk
  obtain ⟨result, hresult, hsame⟩ := Option.map_eq_some_iff.mp hk.symm
  exact ⟨result, hresult, hsame.symm⟩

end Turns

end Chip8.Text
