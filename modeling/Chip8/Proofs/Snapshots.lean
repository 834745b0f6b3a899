/-
  What a report tells. Every number in it is read back from its digits, whatever the width that it
  was written in (`Hex.integerOf_chars`), and no number has a blank in it. So each field ends where
  the first blank stands, and the entries of the call stack are the fields of its line. Reports of
  two machines are the same exactly if they show the same (`report_tells_all`).
-/
import Chip8.Proofs.Atomicity
import Chip8.Text.Fields
import Chip8.Text.Integer
import Mathlib.Data.List.Basic
namespace Chip8

/-! ## Numbers in hexadecimal digits -/

namespace Text.Hex

theorem toList_text (width : Nat) (i : Int) : (text width i).toList = chars width i :=
  String.toList_ofList

theorem toList_bytes (bs : List UInt8) : (bytes bs).toList = bs.flatMap byteChars :=
  String.toList_ofList

/-- The number of some hexadecimal digits, most significant first. -/
def numberOf (cs : List Char) : Nat := ofDigitValues 16 (cs.filterMap digitValue?)

/-- The integer of some hexadecimal digits, which may have a minus sign. -/
def integerOf : List Char → Int
  | '-' :: cs => -(numberOf cs : Int)
  | cs => numberOf cs

theorem digitValue?_digit : ∀ d < 16, digitValue? (digit d) = some d := by decide

theorem digit_ne_blank : ∀ d < 16, digit d ≠ ' ' := by decide

theorem digit_ne_minus : ∀ d < 16, digit d ≠ '-' := by decide

theorem numberOf_concat (cs : List Char) {d : Nat} (h : d < 16) :
    numberOf (cs ++ [digit d]) = numberOf cs * 16 + d := by
  rw [numberOf, List.filterMap_append, ofDigitValues, List.foldl_append,
    List.filterMap_cons_some (digitValue?_digit d h)]
  rfl

theorem numberOf_digits (n : Nat) : numberOf (digits n) = n := by
  fun_induction digits n with
  | case1 n h =>
    have hone := numberOf_concat [] h
    rw [List.nil_append] at hone
    rw [hone]
    exact Nat.zero_add n
  | case2 n h ih =>
    rw [numberOf_concat _ (Nat.mod_lt n (by decide)), ih]
    omega

theorem numberOf_zeros (k : Nat) (cs : List Char) :
    numberOf (List.replicate k '0' ++ cs) = numberOf cs := by
  induction k with
  | zero => rfl
  | succ k ih =>
    rw [List.replicate_succ, List.cons_append]
    exact ih

theorem numberOf_padded (width n : Nat) : numberOf (padded width n) = n := by
  rw [padded, numberOf_zeros, numberOf_digits]

theorem mem_digits {n : Nat} {c : Char} (h : c ∈ digits n) : ∃ d < 16, c = digit d := by
  fun_induction digits n with
  | case1 n hn => exact ⟨n, hn, List.mem_singleton.mp h⟩
  | case2 n hn ih =>
    rcases List.mem_append.mp h with h | h
    · exact ih h
    · exact ⟨n % 16, Nat.mod_lt n (by decide), List.mem_singleton.mp h⟩

theorem mem_padded {width n : Nat} {c : Char} (h : c ∈ padded width n) :
    ∃ d < 16, c = digit d := by
  rcases List.mem_append.mp h with h | h
  · exact ⟨0, by decide, List.eq_of_mem_replicate h⟩
  · exact mem_digits h

theorem mem_chars {width : Nat} {i : Int} {c : Char} (h : c ∈ chars width i) :
    c = '-' ∨ ∃ d < 16, c = digit d := by
  cases i with
  | ofNat n => exact Or.inr (mem_padded h)
  | negSucc n =>
    rcases List.mem_cons.mp h with rfl | h
    · exact Or.inl rfl
    · exact Or.inr (mem_padded h)

theorem blank_not_mem_chars (width : Nat) (i : Int) : ' ' ∉ chars width i := by
  intro h
  rcases mem_chars h with h | ⟨d, hd, h⟩
  · exact absurd h (by decide)
  · exact digit_ne_blank d hd h.symm

/-- A number is read back from its text, of whatever width. -/
theorem integerOf_chars (width : Nat) (i : Int) : integerOf (chars width i) = i := by
  cases i with
  | ofNat n =>
    have hvalue := numberOf_padded width n
    have hdigits : ∀ c ∈ padded width n, ∃ d < 16, c = digit d := fun c => mem_padded
    -- without a minus sign in front all of the text is digits
    rw [chars]
    generalize padded width n = cs at hvalue hdigits ⊢
    unfold integerOf
    split
    · obtain ⟨d, hd, hminus⟩ := hdigits '-' List.mem_cons_self
      exact absurd hminus.symm (digit_ne_minus d hd)
    · rw [hvalue]
      rfl
  | negSucc n =>
    rw [chars, integerOf, numberOf_padded]
    rfl

theorem chars_injective {width : Nat} {i j : Int} (h : chars width i = chars width j) : i = j := by
  rw [← integerOf_chars width i, h, integerOf_chars]

theorem byteChars_injective {b c : UInt8} (h : byteChars b = byteChars c) : b = c := by
  rw [byteChars_eq_chars, byteChars_eq_chars] at h
  exact UInt8.toNat_inj.mp (Int.ofNat.inj (chars_injective h))

theorem blank_not_mem_byteChars (bs : List UInt8) : ' ' ∉ bs.flatMap byteChars := by
  intro h
  obtain ⟨b, -, hb⟩ := List.mem_flatMap.mp h
  rw [byteChars_eq_chars] at hb
  exact blank_not_mem_chars 2 _ hb

theorem flatMap_byteChars_injective {bs cs : List UInt8}
    (h : bs.flatMap byteChars = cs.flatMap byteChars) : bs = cs := by
  induction bs generalizing cs with
  | nil =>
    cases cs with
    | nil => rfl
    | cons c cs => cases h
  | cons b bs ih =>
    cases cs with
    | nil => cases h
    | cons c cs =>
      rw [List.flatMap_cons, List.flatMap_cons] at h
      obtain ⟨hb, hbs⟩ := List.append_inj h rfl
      rw [byteChars_injective hb, ih hbs]

/-- A number ends where a mark stands that begins with a blank. -/
theorem append_mark_inj {mark rest rest' : List Char} {width : Nat} {i j : Int}
    (hmark : mark.head? = some ' ')
    (h : chars width i ++ (mark ++ rest) = chars width j ++ (mark ++ rest')) :
    i = j ∧ rest = rest' := by
  obtain ⟨hchars, hrest⟩ :=
    Text.append_mark_inj hmark (blank_not_mem_chars width i) (blank_not_mem_chars width j) h
  exact ⟨chars_injective hchars, hrest⟩

end Text.Hex

/-! ## The call stack -/

namespace Snapshot

open Text

/-- The text of an entry of the call stack. -/
def entryChars (entry : Int) : List Char := ['0', 'x'] ++ Hex.chars 3 entry

theorem blank_not_mem_entryChars (entry : Int) : ' ' ∉ entryChars entry := by
  intro h
  rcases List.mem_append.mp h with h | h
  · exact absurd h (by decide)
  · exact Hex.blank_not_mem_chars 3 entry h

theorem entryChars_injective {e f : Int} (h : entryChars e = entryChars f) : e = f :=
  Hex.chars_injective (List.append_cancel_left h)

theorem intercalate_entryChars (first : List Char) (entries : List Int) :
    List.intercalate [' '] (first :: entries.map entryChars) =
      first ++ entries.flatMap fun e => ' ' :: entryChars e := by
  induction entries generalizing first with
  | nil => rfl
  | cons e entries ih =>
    rw [List.map_cons, List.intercalate_cons_cons, ih, List.flatMap_cons, List.append_assoc]
    rfl

theorem stackText_cons (e : Int) (entries : List Int) :
    stackText (e :: entries) =
      String.join ((e :: entries).map fun e => " 0x" ++ Hex.text 3 e) := rfl

theorem toList_stackText_cons (e : Int) (entries : List Int) :
    (stackText (e :: entries)).toList =
      List.intercalate [' '] ([] :: (e :: entries).map entryChars) := by
  have hword : ∀ f : Int, (" 0x" ++ Hex.text 3 f).toList = ' ' :: entryChars f := by
    intro f
    rw [String.toList_append, Hex.toList_text]
    rfl
  rw [intercalate_entryChars, List.nil_append, stackText_cons, String.toList_join,
    List.flatMap_map]
  simp only [hword]

/-- The entries are the fields after the first blank, unless there are none. -/
theorem fields_stackText (entries : List Int) :
    fields ' ' (stackText entries).toList =
      [] :: if entries = [] then ["(Empty)".toList] else entries.map entryChars := by
  cases entries with
  | nil => decide
  | cons e entries =>
    rw [toList_stackText_cons, fields_intercalate, if_neg (List.cons_ne_nil e entries)]
    intro f hf
    rcases List.mem_cons.mp hf with rfl | hf
    · exact List.not_mem_nil
    · obtain ⟨g, -, rfl⟩ := List.mem_map.mp hf
      exact blank_not_mem_entryChars g

theorem stackText_injective {entries others : List Int}
    (h : (stackText entries).toList = (stackText others).toList) : entries = others := by
  have hfields := congrArg (fields ' ') h
  rw [fields_stackText, fields_stackText] at hfields
  obtain ⟨-, hwords⟩ := List.cons.inj hfields
  have hempty : ∀ (e : Int) (es : List Int),
      ["(Empty)".toList] ≠ (e :: es).map entryChars := by
    intro e es hes
    have hhead := congrArg List.head? (List.cons.inj hes).1
    cases hhead
  cases entries with
  | nil =>
    cases others with
    | nil => rfl
    | cons f fs => exact absurd hwords (hempty f fs)
  | cons e es =>
    cases others with
    | nil => exact absurd hwords.symm (hempty e es)
    | cons f fs => exact (List.map_inj_right fun _ _ => entryChars_injective).mp hwords

/-! ## The report -/

theorem toList_report (s : Snapshot) :
    s.report.toList =
      "V: 0x".toList ++ (s.registers.toList.reverse.flatMap Hex.byteChars ++
      (" I: 0x".toList ++ (Hex.chars 4 s.index ++
      (" DT: 0x".toList ++ (Hex.chars 2 s.delay ++
      (" ST: 0x".toList ++ (Hex.chars 2 s.sound ++
      (" PC: 0x".toList ++ (Hex.chars 3 s.counter ++
      (" OP: 0x".toList ++ (Hex.chars 4 s.opcode ++
      (" IN: ".toList ++ (s.instruction.toList ++
      ("\nStack:".toList ++ (stackText s.stack).toList)))))))))))))) := by
  unfold report line
  -- what the marks are does not matter here, and they should not be taken apart
  generalize "V: 0x" = v, " I: 0x" = i, " DT: 0x" = dt, " ST: 0x" = st, " PC: 0x" = pc,
    " OP: 0x" = op, " IN: " = text, "\nStack:" = stack
  simp only [String.toList_append, Hex.toList_bytes, Hex.toList_text, List.append_assoc]

theorem report_injective {s t : Snapshot} (hs : '\n' ∉ s.instruction.toList)
    (ht : '\n' ∉ t.instruction.toList) (h : s.report = t.report) : s = t := by
  have hchars := congrArg String.toList h
  rw [toList_report, toList_report] at hchars
  obtain ⟨hregisters, hchars⟩ := append_mark_inj rfl (Hex.blank_not_mem_byteChars _)
    (Hex.blank_not_mem_byteChars _) (List.append_cancel_left hchars)
  obtain ⟨hindex, hchars⟩ := Hex.append_mark_inj rfl hchars
  obtain ⟨hdelay, hchars⟩ := Hex.append_mark_inj rfl hchars
  obtain ⟨hsound, hchars⟩ := Hex.append_mark_inj rfl hchars
  obtain ⟨hcounter, hchars⟩ := Hex.append_mark_inj rfl hchars
  obtain ⟨hopcode, hchars⟩ := Hex.append_mark_inj rfl hchars
  obtain ⟨hinstruction, hchars⟩ := append_mark_inj rfl hs ht hchars
  have hstack := stackText_injective hchars
  have hvector : s.registers = t.registers := by
    have hlist := List.reverse_inj.mp (Hex.flatMap_byteChars_injective hregisters)
    exact Vector.toList_inj.mp hlist
  have htext : s.instruction = t.instruction := String.toList_inj.mp hinstruction
  cases s
  cases t
  cases hvector
  cases hindex
  cases hdelay
  cases hsound
  cases hcounter
  cases hopcode
  cases htext
  cases hstack
  rfl

/-- The report of a machine is unambiguous: two reports are the same text exactly if all that they
show is the same, which are the registers, the index, both timers, the counter, the opcode, the
instruction, and the open calls from the first to the last. Numbers may have any sign and be wider
than the places for them. The text of an instruction is one line. -/
theorem report_tells_all (m n : Machine) (opcode opcode' : Int) {instruction instruction' : String}
    (hm : '\n' ∉ instruction.toList) (hn : '\n' ∉ instruction'.toList) :
    (ofMachine m opcode instruction).report = (ofMachine n opcode' instruction').report ↔
      m.registers = n.registers ∧ m.index = n.index ∧ m.delay = n.delay ∧ m.sound = n.sound ∧
        m.counter = n.counter ∧ opcode = opcode' ∧ instruction = instruction' ∧
        m.stack.entries = n.stack.entries := by
  constructor
  · intro h
    have hsnapshots := report_injective hm hn h
    simpa only [ofMachine, mk.injEq] using hsnapshots
  · rintro ⟨hregisters, hindex, hdelay, hsound, hcounter, rfl, rfl, hstack⟩
    rw [ofMachine, ofMachine, hregisters, hindex, hdelay, hsound, hcounter, hstack]

/-- A machine with calls open, and with more in its stack than is in use. -/
def callingMachine (calls popped : List Int) : Machine :=
  { strandedMachine with index := -1, stack := ⟨16, (calls ++ popped).toArray, calls.length⟩ }

/-- Where one call ends and the next one begins can be told, and what was popped cannot. -/
theorem report_tells_all_calls :
    '\n' ∉ "???".toList ∧
      (ofMachine (callingMachine [0x1, 0x23] []) (-1) "???").report ≠
        (ofMachine (callingMachine [0x12, 0x3] []) (-1) "???").report ∧
      (ofMachine (callingMachine [0x12, -3] []) (-1) "???").report =
        (ofMachine (callingMachine [0x12, -3] [0x200]) (-1) "???").report := by
  have hline : '\n' ∉ "???".toList := by decide
  refine ⟨hline, ?_, ?_⟩
  · intro h
    obtain ⟨-, -, -, -, -, -, -, hstack⟩ := (report_tells_all _ _ _ _ hline hline).mp h
    exact absurd hstack (by decide)
  · exact (report_tells_all _ _ _ _ hline hline).mpr ⟨rfl, rfl, rfl, rfl, rfl, rfl, rfl, rfl⟩

end Snapshot

end Chip8
