/-
  Which texts are palettes. A text has at most two fields of six characters, and each of them is
  read as a number. Six characters make no number of more than 24 bits, but one that is negative
  they do make, and this is found out only when the number is to become a colour. So every text is a
  palette or is refused with a message, but for those of which some number is negative
  (`palette_law_iff_not_negative`).
-/
import Chip8.Host.Palette
import Chip8.Proofs.Numerals
namespace Chip8.Host

open Text

/-! ## Numbers and colours -/

namespace Colour

/-- The number of a colour. -/
def number (c : Colour) : Int := 65536 * c.red.toNat + 256 * c.green.toNat + c.blue.toNat

theorem ofNumber?_eq_some_iff {n : Int} {c : Colour} : ofNumber? n = some c ↔ c.number = n := by
  obtain ⟨red, green, blue⟩ := c
  have hred := red.toNat_lt
  have hgreen := green.toNat_lt
  have hblue := blue.toNat_lt
  unfold ofNumber? number
  constructor
  · intro h
    split at h
    · rename_i hrange
      simp only [Option.some.injEq, Colour.mk.injEq] at h
      obtain ⟨rfl, rfl, rfl⟩ := h
      simp only [UInt8.toNat_ofNat']
      omega
    · cases h
  · intro h
    dsimp only at h
    rw [if_pos (by omega)]
    simp only [Option.some.injEq, Colour.mk.injEq, ← UInt8.toNat_inj, UInt8.toNat_ofNat']
    omega

theorem exists_ofNumber? {n : Int} (h : 0 ≤ n ∧ n < 0x1000000) : ∃ c, ofNumber? n = some c :=
  ⟨_, if_pos h⟩

theorem ofNumber?_of_neg {n : Int} (h : n < 0) : ofNumber? n = none := if_neg (by omega)

theorem number_injective {c d : Colour} (h : c.number = d.number) : c = d :=
  Option.some.inj ((ofNumber?_eq_some_iff.mpr rfl).symm.trans (ofNumber?_eq_some_iff.mpr h.symm))

end Colour

/-- The error is reported: it has a text of its own. -/
def PaletteError.Reported (e : PaletteError) : Prop := ∃ message, e.message? = some message

namespace Palette

/-- The colours of a palette, each as three bytes. -/
def entries (p : Palette) : List (List UInt8) := [p.background.bytes, p.foreground.bytes]

/-- The palette where no text is given. -/
def standard : Palette := ⟨⟨0x64, 0x95, 0xED⟩, ⟨0xFF, 0xFF, 0xFF⟩⟩

/-! ## Reading numbers -/

theorem readNumber_eq_ok_iff {f : List Char} {n : Int} :
    readNumber f = .ok n ↔ f.length = 6 ∧ readInteger? .hexadecimal f = some n := by
  unfold readNumber
  by_cases hsix : f.length = 6
  · rw [if_neg (not_not.mpr hsix)]
    cases readInteger? .hexadecimal f with
    | none => simp
    | some m => simp [hsix]
  · rw [if_pos hsix]
    simp [hsix]

theorem readNumber_reported {f : List Char} {e : PaletteError} (h : readNumber f = .error e) :
    e.Reported := by
  unfold readNumber at h
  split at h
  · cases h
    exact ⟨_, rfl⟩
  · split at h
    · cases h
      exact ⟨_, rfl⟩
    · cases h

/-- A number of six characters has no more than 24 bits. -/
theorem readNumber_lt {f : List Char} {n : Int} (h : readNumber f = .ok n) : n < 0x1000000 := by
  obtain ⟨hsix, hread⟩ := readNumber_eq_ok_iff.mp h
  have hlt := readInteger?_lt hread
  rw [hsix] at hlt
  exact hlt

/-- Fields are all read, or there is one that is not. -/
theorem mapM_readNumber (fs : List (List Char)) :
    (∃ numbers, fs.mapM readNumber = .ok numbers ∧
      fs.map readNumber = numbers.map Except.ok) ∨
    ∃ e, fs.mapM readNumber = .error e ∧ ∃ f ∈ fs, readNumber f = .error e := by
  induction fs with
  | nil => exact Or.inl ⟨[], rfl, rfl⟩
  | cons f fs ih =>
    rw [List.mapM_cons]
    cases hf : readNumber f with
    | error e => exact Or.inr ⟨e, rfl, f, List.mem_cons_self, hf⟩
    | ok n =>
      obtain ⟨numbers, hall, hread⟩ | ⟨e, hall, g, hg, he⟩ := ih
      · refine Or.inl ⟨n :: numbers, ?_, ?_⟩
        · rw [hall]
          rfl
        · rw [List.map_cons, hf, hread, List.map_cons]
      · refine Or.inr ⟨e, ?_, g, List.mem_cons_of_mem f hg, he⟩
        rw [hall]
        rfl

/-- The palette of some numbers. A colour that is not given is the standard one. -/
def ofGiven (numbers : List Int) : Except PaletteError Palette :=
  ofNumbers (numbers.getD 0 defaultBackground) (numbers.getD 1 defaultForeground)

/-- All fields are read before any number is taken for a colour. -/
theorem ofText_eq (text : String) :
    ofText text =
      if 2 < (fields ',' text.toList).length then .error .tooMany
      else (fields ',' text.toList).mapM readNumber >>= ofGiven := by
  unfold ofText
  cases hfields : fields ',' text.toList with
  | nil => exact absurd hfields (fields_ne_nil ',' text.toList)
  | cons b fs =>
    cases fs with
    | nil =>
      rw [if_neg (by simp), List.mapM_cons, List.mapM_nil]
      dsimp only
      cases readNumber b with
      | error e => rfl
      | ok n => rfl
    | cons f fs =>
      cases fs with
      | nil =>
        rw [if_neg (by simp), List.mapM_cons, List.mapM_cons, List.mapM_nil]
        dsimp only
        cases readNumber b with
        | error e => rfl
        | ok n =>
          cases readNumber f with
          | error e => rfl
          | ok m => rfl
      | cons g fs => rw [if_pos (by simp)]

/-! ## Palettes of numbers -/

theorem ofNumbers_eq_ok_iff {b f : Int} {p : Palette} :
    ofNumbers b f = .ok p ↔ p.background.number = b ∧ p.foreground.number = f := by
  rw [← Colour.ofNumber?_eq_some_iff, ← Colour.ofNumber?_eq_some_iff]
  unfold ofNumbers
  constructor
  · intro h
    split at h
    · rename_i hb hf
      cases h
      exact ⟨hb, hf⟩
    · cases h
  · rintro ⟨hb, hf⟩
    rw [hb, hf]

theorem ofNumbers_of_neg {b f : Int} (h : b < 0 ∨ f < 0) : ofNumbers b f = .error .outOfRange := by
  unfold ofNumbers
  rcases h with hb | hf
  · rw [Colour.ofNumber?_of_neg hb]
  · rw [Colour.ofNumber?_of_neg hf]
    cases Colour.ofNumber? b with
    | none => rfl
    | some c => rfl

theorem exists_ofNumbers {b f : Int} (hb : 0 ≤ b ∧ b < 0x1000000) (hf : 0 ≤ f ∧ f < 0x1000000) :
    ∃ p, ofNumbers b f = .ok p := by
  obtain ⟨c, hc⟩ := Colour.exists_ofNumber? hb
  obtain ⟨d, hd⟩ := Colour.exists_ofNumber? hf
  exact ⟨⟨c, d⟩, by rw [ofNumbers, hc, hd]⟩

/-! ## The law -/

/-- The text has no more than two fields, all of them are six characters of a number, and one of the
numbers is negative. -/
structure Negative (text : String) : Prop where
  count : (fields ',' text.toList).length ≤ 2
  read : ∀ f ∈ fields ',' text.toList, f.length = 6 ∧ ∃ n, readInteger? .hexadecimal f = some n
  negative : ∃ f ∈ fields ',' text.toList, ∃ n, readInteger? .hexadecimal f = some n ∧ n < 0

/-- The palette has two colours of three bytes. That of a field is its number, and a colour without
a field is the standard one. -/
structure GivenBy (p : Palette) (fs : List (List Char)) : Prop where
  count : fs.length ≤ 2
  six : ∀ f ∈ fs, f.length = 6
  shape : p.entries.length = 2 ∧ ∀ entry ∈ p.entries, entry.length = 3
  given : ∀ (k : Nat) f, fs[k]? = some f → ∃ (b₀ b₁ b₂ : UInt8) (n : Int),
    p.entries[k]? = some [b₀, b₁, b₂] ∧ readInteger? .hexadecimal f = some n ∧
      65536 * (b₀.toNat : Int) + 256 * b₁.toNat + b₂.toNat = n
  kept : ∀ k : Nat, fs.length ≤ k → p.entries[k]? = standard.entries[k]?

/-- What should come of a text: a palette of its colours, or an error that is reported. -/
structure Lawful (text : String) : Prop where
  settled : (∃ p, ofText text = .ok p) ∨ ∃ e, ofText text = .error e ∧ e.Reported
  given : ∀ p, ofText text = .ok p → p.GivenBy (fields ',' text.toList)

section Numbers

variable {fs : List (List Char)} {numbers : List Int}
  (hread : fs.map readNumber = numbers.map Except.ok)

include hread

/-- A palette of the numbers of some fields is given by them. -/
theorem givenBy_of_ofGiven {p : Palette} (hcount : fs.length ≤ 2) (h : ofGiven numbers = .ok p) :
    p.GivenBy fs := by
  obtain ⟨hbackground, hforeground⟩ := ofNumbers_eq_ok_iff.mp h
  have hlength := length_of_map_eq hread
  -- the number of a colour is that of its field, or the standard one
  have hcolour : ∀ {k : Nat} {c : Colour} {default n : Int}, c.number = numbers.getD k default →
      numbers[k]? = some n → c.number = n := by
    intro k c default n hc hn
    rw [hc, List.getD_eq_getElem?_getD, hn, Option.getD_some]
  have hstandard : ∀ {k : Nat} {c d : Colour} {default : Int},
      c.number = numbers.getD k default → d.number = default → fs.length ≤ k → c = d := by
    intro k c d default hc hd hk
    rw [List.getD_eq_getElem?_getD, List.getElem?_eq_none (by omega), Option.getD_none] at hc
    exact Colour.number_injective (hc.trans hd.symm)
  refine ⟨hcount, ?_, ⟨rfl, ?_⟩, ?_, ?_⟩
  · intro f hf
    obtain ⟨k, hk⟩ := List.mem_iff_getElem?.mp hf
    obtain ⟨n, -, hn⟩ := getElem?_of_map_eq hread hk
    exact (readNumber_eq_ok_iff.mp hn).1
  · intro entry hentry
    simp only [entries, List.mem_cons, List.not_mem_nil, or_false] at hentry
    rcases hentry with rfl | rfl
    · rfl
    · rfl
  · intro k f hf
    obtain ⟨n, hn, hfield⟩ := getElem?_of_map_eq hread hf
    obtain ⟨-, hinteger⟩ := readNumber_eq_ok_iff.mp hfield
    have hk := (List.getElem?_eq_some_iff.mp hf).1
    match k with
    | 0 => exact ⟨_, _, _, n, rfl, hinteger, hcolour hbackground hn⟩
    | 1 => exact ⟨_, _, _, n, rfl, hinteger, hcolour hforeground hn⟩
    | k + 2 => omega
  · intro k hk
    match k with
    | 0 =>
      have hsame : p.background = standard.background := hstandard hbackground rfl hk
      simp only [entries, hsame, List.getElem?_cons_zero]
    | 1 =>
      have hsame : p.foreground = standard.foreground := hstandard hforeground rfl hk
      simp only [entries, hsame, List.getElem?_cons_succ, List.getElem?_cons_zero]
    | k + 2 => rfl

/-- Numbers without a negative one make a palette. -/
theorem exists_ofGiven (h : ∀ n ∈ numbers, 0 ≤ n) : ∃ p, ofGiven numbers = .ok p := by
  have hrange : ∀ (k : Nat) {default : Int}, 0 ≤ default ∧ default < 0x1000000 →
      0 ≤ numbers.getD k default ∧ numbers.getD k default < 0x1000000 := by
    intro k default hdefault
    rw [List.getD_eq_getElem?_getD]
    cases hn : numbers[k]? with
    | none => exact hdefault
    | some n =>
      obtain ⟨f, -, hfield⟩ := getElem?_of_map_eq hread.symm hn
      exact ⟨h n (List.mem_of_getElem? hn), readNumber_lt hfield.symm⟩
  exact exists_ofNumbers (hrange 0 (by decide)) (hrange 1 (by decide))

theorem ofGiven_of_neg (hcount : fs.length ≤ 2) {n : Int} (hmem : n ∈ numbers) (hn : n < 0) :
    ofGiven numbers = .error .outOfRange := by
  have hlength := length_of_map_eq hread
  obtain ⟨k, hk⟩ := List.mem_iff_getElem?.mp hmem
  have hlt := (List.getElem?_eq_some_iff.mp hk).1
  have hgetD : ∀ default, numbers.getD k default = n := by
    intro default
    rw [List.getD_eq_getElem?_getD, hk, Option.getD_some]
  refine ofNumbers_of_neg ?_
  match k with
  | 0 => exact Or.inl ((hgetD _).trans_lt hn)
  | 1 => exact Or.inr ((hgetD _).trans_lt hn)
  | k + 2 => omega

theorem negative_iff {text : String} (htext : fields ',' text.toList = fs)
    (hcount : fs.length ≤ 2) : Negative text ↔ ∃ n ∈ numbers, n < 0 := by
  subst htext
  constructor
  · intro h
    obtain ⟨f, hf, n, hinteger, hn⟩ := h.negative
    obtain ⟨k, hk⟩ := List.mem_iff_getElem?.mp hf
    obtain ⟨m, hm, hfield⟩ := getElem?_of_map_eq hread hk
    rw [(readNumber_eq_ok_iff.mp hfield).2, Option.some.injEq] at hinteger
    exact ⟨m, List.mem_of_getElem? hm, hinteger ▸ hn⟩
  · rintro ⟨n, hmem, hn⟩
    refine ⟨hcount, ?_, ?_⟩
    · intro f hf
      obtain ⟨k, hk⟩ := List.mem_iff_getElem?.mp hf
      obtain ⟨m, -, hfield⟩ := getElem?_of_map_eq hread hk
      obtain ⟨hsix, hinteger⟩ := readNumber_eq_ok_iff.mp hfield
      exact ⟨hsix, m, hinteger⟩
    · obtain ⟨k, hk⟩ := List.mem_iff_getElem?.mp hmem
      obtain ⟨f, hf, hfield⟩ := getElem?_of_map_eq hread.symm hk
      exact ⟨f, List.mem_of_getElem? hf, n, (readNumber_eq_ok_iff.mp hfield.symm).2, hn⟩

end Numbers

/-- What a text comes to. -/
theorem ofText_outcome (text : String) :
    (∃ e, ofText text = .error e ∧ e.Reported ∧ ¬ Negative text) ∨
    (Negative text ∧ ofText text = .error .outOfRange) ∨
    (∃ p, ofText text = .ok p ∧ p.GivenBy (fields ',' text.toList) ∧ ¬ Negative text) := by
  have heq := ofText_eq text
  by_cases hcount : 2 < (fields ',' text.toList).length
  · rw [if_pos hcount] at heq
    exact Or.inl ⟨_, heq, ⟨_, rfl⟩, fun h => Nat.not_le.mpr hcount h.count⟩
  · rw [if_neg hcount] at heq
    obtain ⟨numbers, hall, hread⟩ | ⟨e, hall, f, hf, he⟩ :=
      mapM_readNumber (fields ',' text.toList)
    · rw [hall] at heq
      have hle := Nat.not_lt.mp hcount
      have hnegative := negative_iff hread rfl hle
      by_cases hneg : ∃ n ∈ numbers, n < 0
      · obtain ⟨n, hmem, hn⟩ := hneg
        exact Or.inr (Or.inl ⟨hnegative.mpr ⟨n, hmem, hn⟩,
          heq.trans (ofGiven_of_neg hread hle hmem hn)⟩)
      · obtain ⟨p, hp⟩ := exists_ofGiven hread fun n hmem =>
          Int.not_lt.mp fun hn => hneg ⟨n, hmem, hn⟩
        exact Or.inr (Or.inr ⟨p, heq.trans hp, givenBy_of_ofGiven hread hle hp,
          mt hnegative.mp hneg⟩)
    · rw [hall] at heq
      refine Or.inl ⟨e, heq, readNumber_reported he, ?_⟩
      intro h
      obtain ⟨hsix, n, hn⟩ := h.read f hf
      rw [readNumber_eq_ok_iff.mpr ⟨hsix, hn⟩] at he
      cases he

/-- A palette that a text gives is that of its fields. -/
theorem givenBy_of_ok {text : String} {p : Palette} (h : ofText text = .ok p) :
    p.GivenBy (fields ',' text.toList) := by
  obtain ⟨e, he, -⟩ | ⟨-, he⟩ | ⟨q, hq, hgiven, -⟩ := ofText_outcome text
  · rw [h] at he
    cases he
  · rw [h] at he
    cases he
  · rw [h, Except.ok.injEq] at hq
    exact hq ▸ hgiven

theorem not_reported_outOfRange : ¬ PaletteError.outOfRange.Reported := nofun

/-- A text whose number is out of range does not come out as it should. -/
theorem not_lawful_of_outOfRange {text : String} (h : ofText text = .error .outOfRange) :
    ¬ Lawful text := by
  rintro ⟨⟨p, hp⟩ | ⟨e, he, hreported⟩, -⟩
  · rw [h] at hp
    cases hp
  · rw [h, Except.error.injEq] at he
    exact not_reported_outOfRange (he ▸ hreported)

/-- The palettes that a text gives, and the errors that are reported, are as they should be exactly
if no number is negative. A text with a negative number is refused with an error that is not
reported, and any palette that a text gives is that of its fields. -/
theorem palette_law_iff_not_negative (text : String) :
    (Lawful text ↔ ¬ Negative text) ∧
    (Negative text → ofText text = .error .outOfRange ∧ ¬ PaletteError.outOfRange.Reported) ∧
    (∀ p, ofText text = .ok p → p.GivenBy (fields ',' text.toList)) := by
  have hgiven : ∀ p, ofText text = .ok p → p.GivenBy (fields ',' text.toList) :=
    fun p => givenBy_of_ok
  obtain ⟨e, he, hreported, hregular⟩ | ⟨hnegative, he⟩ | ⟨p, hp, -, hregular⟩ :=
    ofText_outcome text
  · have hlawful : Lawful text := ⟨Or.inr ⟨e, he, hreported⟩, hgiven⟩
    exact ⟨iff_of_true hlawful hregular, fun hnegative => absurd hnegative hregular, hgiven⟩
  · have hunlawful := not_lawful_of_outOfRange he
    exact ⟨iff_of_false hunlawful (not_not.mpr hnegative),
      fun _ => ⟨he, not_reported_outOfRange⟩, hgiven⟩
  · have hlawful : Lawful text := ⟨Or.inl ⟨p, hp⟩, hgiven⟩
    exact ⟨iff_of_true hlawful hregular, fun hnegative => absurd hnegative hregular, hgiven⟩

/-- A negative number passes for a colour until its bytes are taken, and then there is no message
for it. -/
theorem negative_colour_unreported :
    ofText "-00001" = .error .outOfRange ∧ ¬ Lawful "-00001" := by
  have hrefused : ofText "-00001" = .error .outOfRange := by decide +kernel
  exact ⟨hrefused, not_lawful_of_outOfRange hrefused⟩

end Palette

end Chip8.Host
