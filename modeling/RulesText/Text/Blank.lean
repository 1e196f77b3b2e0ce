/-
Unicode blanks (the property `White_Space`) and trimming. Trimming only drops characters
(`mem_of_mem_trim`), and what it leaves starts with no blank (`head_trim`).
-/
import RulesText.Text.Basic

namespace RulesText.Text

/-- The code points with the property `White_Space`. -/
def blankRanges : List (Nat × Nat) :=
  [(0x9, 0xD), (0x20, 0x20), (0x85, 0x85), (0xA0, 0xA0), (0x1680, 0x1680), (0x2000, 0x200A),
    (0x2028, 0x2029), (0x202F, 0x202F), (0x205F, 0x205F), (0x3000, 0x3000)]

/-- Whether a character is a Unicode blank. -/
def isBlank (c : Char) : Bool := within blankRanges c

def trim (t : Text) : Text :=
  ((t.dropWhile isBlank).reverse.dropWhile isBlank).reverse

theorem isBlank_of_isLayout {c : Char} (h : isLayout c = true) : isBlank c = true := by
  simp only [isLayout, Bool.or_eq_true, decide_eq_true_eq] at h
  rcases h with (((rfl | rfl) | rfl) | rfl) | rfl <;> decide

theorem mem_of_mem_trim {c : Char} {t : Text} (h : c ∈ trim t) : c ∈ t := by
  rw [trim, List.mem_reverse] at h
  have h := (List.dropWhile_sublist isBlank).subset h
  rw [List.mem_reverse] at h
  exact (List.dropWhile_sublist isBlank).subset h

/-- A trimmed text does not start with a blank. -/
theorem head_trim {c : Char} {t r : Text} (h : trim t = c :: r) : isBlank c = false := by
  have hsub : trim t <+: t.dropWhile isBlank := by
    rw [trim]
    have := List.dropWhile_suffix (l := (t.dropWhile isBlank).reverse) isBlank
    simpa using List.reverse_prefix.2 this
  rw [h] at hsub
  obtain ⟨s, hs⟩ := hsub
  have := List.head?_dropWhile_not isBlank t
  rw [← hs] at this
  simpa using this

end RulesText.Text
