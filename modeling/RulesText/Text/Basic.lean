/-
Texts as lists of characters, and their length in UTF-8 bytes. Every offset of the library counts
those bytes, so `width` is the measure by which positions are added up and `slice` cuts a text
between two of them.
-/
namespace RulesText

/-- A text is the list of its characters; `String.toList` and `String.ofList` lead in and out. -/
abbrev Text := List Char

namespace Text

/-! ## Bytes -/

/-- Length of a text in UTF-8 bytes. -/
def width : Text → Nat
  | [] => 0
  | c :: r => c.utf8Size + width r

@[simp] theorem width_nil : width [] = 0 := rfl

@[simp] theorem width_cons (c : Char) (t : Text) : width (c :: t) = c.utf8Size + width t := rfl

@[simp] theorem width_append (s t : Text) : width (s ++ t) = width s + width t := by
  induction s with
  | nil => simp
  | cons c s ih => simp [ih, Nat.add_assoc]

/-- A text without its first `n` bytes. -/
def dropBytes : Nat → Text → Text
  | 0, t => t
  | _ + 1, [] => []
  | n + 1, c :: r => dropBytes (n + 1 - c.utf8Size) r

def takeBytes : Nat → Text → Text
  | 0, _ => []
  | _ + 1, [] => []
  | n + 1, c :: r => c :: takeBytes (n + 1 - c.utf8Size) r

def slice (t : Text) (start stop : Nat) : Text :=
  takeBytes (stop - start) (dropBytes start t)

theorem dropBytes_width_append (s t : Text) : dropBytes (width s) (s ++ t) = t := by
  induction s with
  | nil => cases t <;> rfl
  | cons c s ih =>
    have hc := c.utf8Size_pos
    obtain ⟨n, hn⟩ : ∃ n, c.utf8Size + width s = n + 1 := ⟨c.utf8Size + width s - 1, by omega⟩
    rw [width_cons, hn, List.cons_append, dropBytes, ← hn, Nat.add_sub_cancel_left, ih]

theorem takeBytes_width_append (s t : Text) : takeBytes (width s) (s ++ t) = s := by
  induction s with
  | nil => cases t <;> rfl
  | cons c s ih =>
    have hc := c.utf8Size_pos
    obtain ⟨n, hn⟩ : ∃ n, c.utf8Size + width s = n + 1 := ⟨c.utf8Size + width s - 1, by omega⟩
    rw [width_cons, hn, List.cons_append, takeBytes, ← hn, Nat.add_sub_cancel_left, ih]

/-- A slice between the ends of a middle part is that part. -/
theorem slice_append (s t u : Text) : slice (s ++ t ++ u) (width s) (width s + width t) = t := by
  rw [slice, List.append_assoc, dropBytes_width_append, Nat.add_sub_cancel_left,
    takeBytes_width_append]

/-! ## Fields -/

/-- The parts of a text between the separators; there is one part more than separators. -/
def fields (sep : Char) (t : Text) : List Text :=
  t.foldr (fun c parts => if c = sep then [] :: parts else (c :: parts.headD []) :: parts.tail) [[]]

@[simp] theorem fields_nil (sep : Char) : fields sep [] = [[]] := rfl

theorem fields_cons (sep c : Char) (t : Text) :
    fields sep (c :: t) =
      if c = sep then [] :: fields sep t
      else (c :: (fields sep t).headD []) :: (fields sep t).tail := rfl

theorem fields_ne_nil (sep : Char) (t : Text) : fields sep t ≠ [] := by
  cases t with
  | nil => simp
  | cons c t => rw [fields_cons]; split <;> simp

theorem mem_of_mem_fields {sep c : Char} {t f : Text} (hf : f ∈ fields sep t) (hc : c ∈ f) :
    c ∈ t := by
  induction t generalizing f with
  | nil => simp_all
  | cons d t ih =>
    rw [fields_cons] at hf
    split at hf
    · rcases List.mem_cons.1 hf with rfl | hf
      · cases hc
      · exact List.mem_cons_of_mem _ (ih hf hc)
    · rcases List.mem_cons.1 hf with rfl | hf
      · rcases List.mem_cons.1 hc with rfl | hc
        · simp
        · obtain ⟨g, gs, h⟩ := List.exists_cons_of_ne_nil (fields_ne_nil sep t)
          exact List.mem_cons_of_mem _ (ih (f := g) (by simp [h]) (by simpa [h] using hc))
      · exact List.mem_cons_of_mem _ (ih (List.mem_of_mem_tail hf) hc)

/-- Writing the separator between the fields gives the text back. -/
theorem intercalate_fields (sep : Char) (t : Text) : [sep].intercalate (fields sep t) = t := by
  induction t with
  | nil => rfl
  | cons c t ih =>
    obtain ⟨f, fs, h⟩ := List.exists_cons_of_ne_nil (fields_ne_nil sep t)
    rw [h] at ih
    rw [fields_cons, h]
    split
    · rename_i hc
      rw [hc, ← ih]
      simp [List.intercalate]
    · rw [← ih]
      cases fs <;> simp [List.intercalate]

theorem not_mem_of_mem_fields {sep : Char} {t f : Text} (hf : f ∈ fields sep t) : sep ∉ f := by
  induction t generalizing f with
  | nil => simp_all
  | cons c t ih =>
    rw [fields_cons] at hf
    split at hf
    · rcases List.mem_cons.1 hf with rfl | hf
      · exact List.not_mem_nil
      · exact ih hf
    · rename_i hc
      rcases List.mem_cons.1 hf with rfl | hf
      · obtain ⟨g, gs, h⟩ := List.exists_cons_of_ne_nil (fields_ne_nil sep t)
        simpa [h, Ne.symm hc] using ih (f := g) (by simp [h])
      · exact ih (List.mem_of_mem_tail hf)

/-- A part that has no separator in it is the first field if a separator follows. -/
theorem fields_append {sep : Char} {t : Text} (h : sep ∉ t) (u : Text) :
    fields sep (t ++ sep :: u) = t :: fields sep u := by
  induction t with
  | nil => rw [List.nil_append, fields_cons, if_pos rfl]
  | cons c t ih =>
    rw [List.mem_cons, not_or] at h
    rw [List.cons_append, fields_cons, if_neg (Ne.symm h.1), ih h.2]
    rfl

theorem fields_of_not_mem {sep : Char} {t : Text} (h : sep ∉ t) : fields sep t = [t] := by
  induction t with
  | nil => rfl
  | cons c t ih =>
    rw [List.mem_cons, not_or] at h
    rw [fields_cons, if_neg (Ne.symm h.1), ih h.2]
    rfl

/-- Texts with the separator written between them are the fields of the whole. -/
theorem fields_intercalate {sep : Char} {ts : List Text} (ne : ts ≠ []) (h : ∀ t ∈ ts, sep ∉ t) :
    fields sep ([sep].intercalate ts) = ts := by
  induction ts with
  | nil => exact absurd rfl ne
  | cons t ts ih =>
    obtain ⟨ht, hts⟩ := List.forall_mem_cons.1 h
    cases ts with
    | nil => rw [List.intercalate_singleton, fields_of_not_mem ht]
    | cons u us =>
      rw [List.intercalate_cons_cons, List.append_assoc, List.singleton_append, fields_append ht,
        ih (List.cons_ne_nil u us) hts]

/-- The characters of joined texts come from the texts or from what is put between them. -/
theorem mem_of_mem_intercalate {c : Char} {sep : Text} {ts : List Text}
    (h : c ∈ sep.intercalate ts) : c ∈ sep ∨ ∃ t ∈ ts, c ∈ t := by
  induction ts with
  | nil => simp [List.intercalate] at h
  | cons t ts ih =>
    cases ts with
    | nil => exact .inr ⟨t, by simp, by simpa [List.intercalate] using h⟩
    | cons u us =>
      rw [List.intercalate_cons_cons, List.append_assoc, List.mem_append, List.mem_append] at h
      rcases h with h | h | h
      · exact .inr ⟨t, by simp, h⟩
      · exact .inl h
      · rcases ih h with h | ⟨v, hv, h⟩
        · exact .inl h
        · exact .inr ⟨v, List.mem_cons_of_mem _ hv, h⟩

/-! ## Characters and numerals -/

/-- The blanks that separate the tokens of a roll: space, tab, line feed, form feed and carriage
return. -/
def isLayout (c : Char) : Bool :=
  c = ' ' || c = '\t' || c = '\n' || c = '\x0c' || c = '\r'

/-- Whether a character lies in one of the given ranges of code points, ends included. -/
def within (ranges : List (Nat × Nat)) (c : Char) : Bool :=
  ranges.any fun (low, high) => low ≤ c.toNat && c.toNat ≤ high

def numeral (n : Nat) : Text := Nat.toDigits 10 n

end Text

end RulesText
