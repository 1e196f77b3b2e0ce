/-
Where the characters of words come from. What is written for a tag is put together from parts of
the tag and from words of the library's own, which are made of few characters (`isWritten`); so any
other character is in the words of a tag only if it is in the tag (`DrawnFrom.not_mem`).
-/
import RulesText.Text.Blank

namespace RulesText.Text

/-- The characters of the library's own words: letters, digits, the blank and some signs. -/
def isWritten (c : Char) : Bool := c.isAlphanum || " +-*/%.:()".toList.contains c

/-- Every character of a text stands in `source` or is one of those in the library's own words. -/
def DrawnFrom (source t : Text) : Prop := ∀ c ∈ t, c ∈ source ∨ isWritten c = true

namespace DrawnFrom

variable {source s t : Text}

theorem nil : DrawnFrom source [] := nofun

theorem of_subset (h : ∀ c ∈ t, c ∈ source) : DrawnFrom source t := fun c hc => .inl (h c hc)

theorem refl (t : Text) : DrawnFrom t t := of_subset fun _ => id

theorem of_mem (ht : DrawnFrom source t) (h : ∀ c ∈ s, c ∈ t) : DrawnFrom source s :=
  fun c hc => ht c (h c hc)

theorem of_written (h : t.all isWritten = true) : DrawnFrom source t :=
  fun c hc => .inr (List.all_eq_true.1 h c hc)

theorem append (hs : DrawnFrom source s) (ht : DrawnFrom source t) : DrawnFrom source (s ++ t) := by
  intro c hc
  rcases List.mem_append.1 hc with h | h
  · exact hs c h
  · exact ht c h

theorem cons {c : Char} (hc : isWritten c = true) (ht : DrawnFrom source t) :
    DrawnFrom source (c :: t) := by
  intro d hd
  rcases List.mem_cons.1 hd with rfl | h
  · exact .inr hc
  · exact ht d h

theorem of_cons {c : Char} (h : DrawnFrom source (c :: t)) :
    DrawnFrom source [c] ∧ DrawnFrom source t :=
  ⟨h.of_mem (by simp), h.of_mem fun _ => List.mem_cons_of_mem c⟩

theorem trans (hs : DrawnFrom source s) (ht : DrawnFrom s t) : DrawnFrom source t := by
  intro c hc
  rcases ht c hc with h | h
  · exact hs c h
  · exact .inr h

theorem intercalate {sep : Text} {ts : List Text} (hsep : DrawnFrom source sep)
    (hts : ∀ t ∈ ts, DrawnFrom source t) : DrawnFrom source (sep.intercalate ts) := by
  intro c hc
  rcases mem_of_mem_intercalate hc with h | ⟨t, ht, h⟩
  · exact hsep c h
  · exact hts t ht c h

/-- The fields of a text are drawn from it, those that are not there among them. -/
theorem field (sep : Char) (t : Text) (i : Nat) : DrawnFrom t ((fields sep t)[i]?.getD []) := by
  rcases h : (fields sep t)[i]? with _ | f
  · exact nil
  · exact of_subset fun c hc => mem_of_mem_fields (List.mem_of_getElem? h) hc

theorem not_mem {c : Char} (h : DrawnFrom source t) (none : c ∉ source)
    (hc : isWritten c = false) : c ∉ t := by
  intro mem
  rcases h c mem with h | h
  · exact none h
  · rw [hc] at h
    cases h

end DrawnFrom

theorem isUpper_toUpper {c : Char} (h : 'a'.val ≤ c.val ∧ c.val ≤ 'z'.val) :
    c.toUpper.isUpper = true := by
  have a : ('a'.val).toNat = 97 := rfl
  have z : ('z'.val).toNat = 122 := rfl
  have down : ('A'.val - 'a'.val : UInt32).toNat = 4294967264 := rfl
  have upper : c.toUpper = ⟨c.val + ('A'.val - 'a'.val), _⟩ := dif_pos h
  simp only [UInt32.le_iff_toNat_le, a, z] at h
  rw [upper]
  refine decide_eq_true ?_
  show ('A'.val).toNat ≤ (c.val + ('A'.val - 'a'.val)).toNat ∧
    (c.val + ('A'.val - 'a'.val)).toNat ≤ ('Z'.val).toNat
  rw [UInt32.toNat_add, down]
  show 65 ≤ _ ∧ _ ≤ 90
  omega

theorem isWritten_toUpper {c : Char} (h : isWritten c = true) : isWritten c.toUpper = true := by
  by_cases lower : 'a'.val ≤ c.val ∧ c.val ≤ 'z'.val
  · have letter : c.toUpper.isAlpha = true := Bool.or_eq_true_iff.2 (.inl (isUpper_toUpper lower))
    simp [isWritten, Char.isAlphanum, letter]
  · have same : c.toUpper = c := dif_neg lower
    rwa [same]

end RulesText.Text
