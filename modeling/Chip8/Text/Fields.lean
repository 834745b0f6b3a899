/-
  A text cut into fields at each occurrence of a separator. There is always at least one field, and
  fields that were joined are told apart again (`fields_intercalate`).
-/
namespace Chip8.Text

/-- The fields of a text. -/
def fields (separator : Char) : List Char → List (List Char)
  | [] => [[]]
  | c :: rest =>
    if c = separator then [] :: fields separator rest
    else
      match fields separator rest with
      | [] => [[c]]
      | f :: fs => (c :: f) :: fs

theorem fields_ne_nil (separator : Char) (cs : List Char) : fields separator cs ≠ [] := by
  cases cs with
  | nil => simp [fields]
  | cons c rest =>
    rw [fields]
    split
    · simp
    · split <;> simp

theorem fields_of_not_mem {separator : Char} {cs : List Char} (h : separator ∉ cs) :
    fields separator cs = [cs] := by
  induction cs with
  | nil => rfl
  | cons c rest ih =>
    obtain ⟨hc, hrest⟩ := not_or.mp (mt List.mem_cons.mpr h)
    rw [fields, if_neg (Ne.symm hc), ih hrest]

theorem fields_append_cons {separator : Char} {f : List Char} (h : separator ∉ f)
    (rest : List Char) :
    fields separator (f ++ separator :: rest) = f :: fields separator rest := by
  induction f with
  | nil => rw [List.nil_append, fields, if_pos rfl]
  | cons c f ih =>
    obtain ⟨hc, hf⟩ := not_or.mp (mt List.mem_cons.mpr h)
    rw [List.cons_append, fields, if_neg (Ne.symm hc), ih hf]

/-- Fields are told apart again once they are joined. -/
theorem fields_intercalate {separator : Char} {f : List Char} {fs : List (List Char)}
    (h : ∀ g ∈ f :: fs, separator ∉ g) :
    fields separator (List.intercalate [separator] (f :: fs)) = f :: fs := by
  induction fs generalizing f with
  | nil =>
    rw [List.intercalate_singleton]
    exact fields_of_not_mem (h f List.mem_cons_self)
  | cons g gs ih =>
    obtain ⟨hf, hgs⟩ := List.forall_mem_cons.mp h
    have hjoined : List.intercalate [separator] (f :: g :: gs) =
        f ++ separator :: List.intercalate [separator] (g :: gs) := by
      rw [List.intercalate_cons_cons, List.append_assoc, List.singleton_append]
    rw [hjoined, fields_append_cons hf, ih hgs]

/-- Texts without a separator end where the same mark stands, which begins with one. -/
theorem append_mark_inj {separator : Char} {mark xs ys rest rest' : List Char}
    (hmark : mark.head? = some separator) (hx : separator ∉ xs) (hy : separator ∉ ys)
    (h : xs ++ (mark ++ rest) = ys ++ (mark ++ rest')) : xs = ys ∧ rest = rest' := by
  cases mark with
  | nil => cases hmark
  | cons c mark =>
    cases hmark
    have hfields := congrArg (fields separator) h
    rw [List.cons_append, List.cons_append, fields_append_cons hx, fields_append_cons hy] at hfields
    obtain ⟨rfl, -⟩ := List.cons.inj hfields
    exact ⟨rfl, List.append_cancel_left (List.append_cancel_left h)⟩

end Chip8.Text
