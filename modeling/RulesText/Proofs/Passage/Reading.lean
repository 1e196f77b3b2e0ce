/-
What one read of a passage can give: `next_tag`, `next_replacement` and `next_literal` say all that
is known of the segment, `next_error` says when a read fails. Everything later about passages is
drawn from these and not from the definition of `next`.
-/
import Mathlib.Data.List.TakeWhile
import RulesText.Passage.Segment

namespace RulesText.Reader

/-! ## Names and openings -/

theorem opening?_name {scope : Scope} {t name inner : Text}
    (h : opening? scope t = some (name, inner)) :
    name.all isNameChar = true ∧ admits scope name = true := by
  unfold opening? at h
  split at h
  · rename_i r
    split at h
    · split at h
      · rename_i hadm
        cases h
        exact ⟨List.all_takeWhile, hadm⟩
      · cases h
    · cases h
  · cases h

/-- A name that opens a tag is not empty. -/
theorem admits_ne_nil {scope : Scope} {name : Text} (h : admits scope name = true) : name ≠ [] := by
  rintro rfl
  cases scope
  · simp [admits] at h
  · rw [admits] at h
    exact absurd h (by decide)

/-! ## The segment that was read -/

/-- A replacement is only read directly behind a tag. -/
theorem next_replacement {s s' : Reader} {text : Text}
    (h : s.next = .ok (some (.replacement text, s'))) :
    s.afterTag = true ∧ s'.afterTag = false ∧ '}' ∉ text := by
  unfold next at h
  split at h
  · cases h
  · split at h
    · rename_i hc
      simp only [Bool.and_eq_true, decide_eq_true_eq] at hc
      split at h
      · cases h
      · cases h
        refine ⟨hc.1, rfl, fun hmem => ?_⟩
        simpa using List.mem_takeWhile_imp hmem
    · split at h
      · split at h <;> cases h
      · cases h

theorem next_tag {s s' : Reader} {span : Span} (h : s.next = .ok (some (.tag span, s'))) :
    s'.afterTag = true ∧ span.start = s.offset ∧ span.name.all isNameChar = true ∧
      admits s.scope span.name = true ∧
      ∃ inner, closing? 0 "" inner = some (span.body, s'.rest) := by
  unfold next at h
  split at h
  · cases h
  · split at h
    · split at h <;> cases h
    · split at h
      · rename_i name inner hopen
        split at h
        · cases h
        · rename_i body rest hclose
          cases h
          obtain ⟨hname, hadm⟩ := opening?_name hopen
          exact ⟨rfl, rfl, hname, hadm, inner, hclose⟩
      · cases h

theorem next_literal {s s' : Reader} {text : Text} (h : s.next = .ok (some (.literal text, s'))) :
    s'.afterTag = false := by
  unfold next at h
  split at h
  · cases h
  · split at h
    · split at h <;> cases h
    · split at h
      · split at h <;> cases h
      · cases h
        rfl

/-- A read fails at a tag whose bracket is never closed, or at a brace directly behind a tag that is
never closed. -/
theorem next_error {s : Reader} {f : Failure} (h : s.next = .error f) :
    (f = .unclosed .tag s.offset ∧ ∃ name inner, s.rest = '@' :: name ++ '[' :: inner ∧
      name.all isNameChar = true ∧ admits s.scope name = true ∧ closing? 0 "" inner = none) ∨
    (f = .unclosed .replacement s.offset ∧ s.afterTag = true ∧
      ∃ inner, s.rest = '{' :: inner ∧ '}' ∉ inner) := by
  unfold next at h
  split at h
  · cases h
  · rename_i c r hrest
    split at h
    · rename_i hc
      simp only [Bool.and_eq_true, decide_eq_true_eq] at hc
      split at h
      · rename_i hd
        cases h
        refine .inr ⟨rfl, hc.1, r, by rw [hrest, hc.2], fun hmem => ?_⟩
        have := List.dropWhile_eq_nil_iff.1 hd '}' hmem
        simp at this
      · cases h
    · split at h
      · rename_i name inner hopen
        split at h
        · rename_i hclose
          cases h
          obtain ⟨hname, hadm⟩ := opening?_name hopen
          exact .inl ⟨rfl, name, inner, by rw [hrest, eq_of_opening? hopen], hname, hadm, hclose⟩
        · cases h
      · cases h

/-- A brace directly behind a tag opens a replacement, or one that is never closed. -/
theorem next_brace {s : Reader} {t : Text} (hafter : s.afterTag = true)
    (hrest : s.rest = '{' :: t) :
    (s.next = .error (.unclosed .replacement s.offset) ∧ '}' ∉ t) ∨
      ∃ text s', s.next = .ok (some (.replacement text, s')) := by
  unfold next
  rw [hrest, hafter]
  simp only [Bool.true_and, decide_true, if_true]
  split
  · rename_i hd
    refine .inl ⟨rfl, fun hmem => ?_⟩
    simpa using List.dropWhile_eq_nil_iff.1 hd '}' hmem
  · exact .inr ⟨_, _, rfl⟩

theorem next_unclosed {s : Reader} {t : Text} (hafter : s.afterTag = true)
    (hrest : s.rest = '{' :: t) (ht : '}' ∉ t) :
    s.next = .error (.unclosed .replacement s.offset) := by
  rcases next_brace hafter hrest with ⟨h, -⟩ | ⟨text, s', h⟩
  · exact h
  · have closed : '{' :: t = '{' :: text ++ ['}'] ++ s'.rest := hrest ▸ (next_source h).1
    exact absurd (by simp [(List.cons.inj closed).2]) ht

/-! ## Reads make progress -/

theorem next_length {s s' : Reader} {segment : Segment} (h : s.next = .ok (some (segment, s'))) :
    s'.rest.length < s.rest.length := by
  have len := congrArg List.length (next_source h).1
  have pos := List.length_pos_iff.2 (source_ne_nil h)
  rw [List.length_append] at len
  omega

/-- The body of a tag and what is read behind the tag take no more than the passage that is left,
less three characters. -/
theorem next_body_length {s s' : Reader} {span : Span} (h : s.next = .ok (some (.tag span, s'))) :
    (ofBody span).rest.length + s'.rest.length + 3 ≤ s.rest.length := by
  have len := congrArg List.length (next_source h).1
  simp only [Segment.source, Span.source, List.length_append, List.length_cons] at len
  show span.body.toList.length + s'.rest.length + 3 ≤ s.rest.length
  simp at len
  omega

end RulesText.Reader
