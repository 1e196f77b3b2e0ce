/-
The segments of a passage: literal text, tags `@name[body]`, and replacements `{...}` directly
behind a tag. A segment has a source text, and `next_source` says that reading a segment takes
exactly that text off the front.
-/
import RulesText.Tag.Fault

namespace RulesText

/-- Which names open a tag. -/
inductive Scope
  /-- In a whole text every name opens a tag. -/
  | text
  /-- In the body of a tag only the name of a family does; other words such as `@item.level` stay
  for the roll. -/
  | body
  deriving DecidableEq, Repr

/-- A tag as it stands in the text. -/
structure Span where
  name : Text
  /-- What stands between the brackets. It is kept packed, since the bodies of nested tags are all
  held at once. -/
  body : String
  start : Nat
  deriving DecidableEq, Repr

namespace Span

def source (s : Span) : Text := '@' :: s.name ++ '[' :: s.body.toList ++ [']']

def bodyStart (s : Span) : Nat := s.start + 1 + s.name.width + 1

end Span

inductive Segment
  | literal (text : Text)
  | tag (span : Span)
  /-- The text that replaces the rendering of the tag before it. -/
  | replacement (text : Text)
  deriving DecidableEq, Repr

def Segment.source : Segment → Text
  | .literal text => text
  | .tag span => span.source
  | .replacement text => '{' :: text ++ ['}']

/-- A passage that has been read up to some place. -/
structure Reader where
  /-- What is still to be read. -/
  rest : Text
  /-- The byte at which `rest` begins. -/
  offset : Nat
  scope : Scope
  /-- Whether the last segment was a tag. -/
  afterTag : Bool := false
  deriving DecidableEq, Repr

namespace Reader

/-! ## Where a tag opens and closes -/

def isNameChar (c : Char) : Bool := c.isAlpha || c = '.'

def admits : Scope → Text → Bool
  | .text, name => !name.isEmpty
  | .body, name => (Family.ofName? name).isSome

/-- The name of the tag that opens at the start of a text, and what follows its `[`. -/
def opening? (scope : Scope) : Text → Option (Text × Text)
  | '@' :: r =>
    match r.dropWhile isNameChar with
    | '[' :: inner =>
      if admits scope (r.takeWhile isNameChar) then some (r.takeWhile isNameChar, inner) else none
    | _ => none
  | _ => none

/-- Splits a text at the `]` that closes the bracket before it. `depth` further brackets are open,
and `seen` was read before. -/
def closing? (depth : Nat) (seen : String) : Text → Option (String × Text)
  | [] => none
  | c :: r =>
    if c = '[' then closing? (depth + 1) (seen.push c) r
    else if c = ']' then
      match depth with
      | 0 => some (seen, r)
      | depth + 1 => closing? depth (seen.push c) r
    else closing? depth (seen.push c) r

/-- Splits a text at the first place where a tag opens; `seen` was read before, newest first. -/
def literal (scope : Scope) (seen : Text) : Text → Text × Text
  | [] => (seen.reverse, [])
  | c :: r =>
    if (opening? scope (c :: r)).isSome then (seen.reverse, c :: r) else literal scope (c :: seen) r

/-! ## Reading -/

/-- The reader behind a segment, with `rest` still to be read. -/
def behind (s : Reader) (segment : Segment) (rest : Text) (afterTag : Bool) : Segment × Reader :=
  (segment, { s with rest, offset := s.offset + segment.source.width, afterTag })

/-- The next segment and the reader behind it, or `none` at the end. -/
def next (s : Reader) : Except Failure (Option (Segment × Reader)) :=
  match s.rest with
  | [] => .ok none
  | c :: r =>
    if s.afterTag && c = '{' then
      match r.dropWhile (· != '}') with
      | [] => .error (.unclosed .replacement s.offset)
      | _ :: rest => .ok (some (s.behind (.replacement (r.takeWhile (· != '}'))) rest false))
    else
      match opening? s.scope (c :: r) with
      | some (name, inner) =>
        match closing? 0 "" inner with
        | none => .error (.unclosed .tag s.offset)
        | some (body, rest) => .ok (some (s.behind (.tag ⟨name, body, s.offset⟩) rest true))
      | none =>
        let (text, rest) := literal s.scope [] (c :: r)
        .ok (some (s.behind (.literal text) rest false))

def ofText (t : Text) : Reader := ⟨t, 0, .text, false⟩

def ofBody (s : Span) : Reader := ⟨s.body.toList, s.bodyStart, .body, false⟩

/-! ## Nothing is lost -/

theorem eq_of_opening? {scope : Scope} {t name inner : Text}
    (h : opening? scope t = some (name, inner)) : t = '@' :: name ++ '[' :: inner := by
  unfold opening? at h
  split at h
  · rename_i r
    split at h
    · rename_i rest hrest
      split at h
      · cases h
        rw [List.cons_append, ← hrest, List.takeWhile_append_dropWhile]
      · cases h
    · cases h
  · cases h

theorem eq_of_closing? {depth : Nat} {seen body : String} {t rest : Text}
    (h : closing? depth seen t = some (body, rest)) :
    ∃ inner, body.toList = seen.toList ++ inner ∧ t = inner ++ ']' :: rest := by
  fun_induction closing? depth seen t with
  | case1 => cases h
  | case2 depth seen r ih =>
    obtain ⟨inner, hbody, rfl⟩ := ih h
    exact ⟨'[' :: inner, by simp [hbody], rfl⟩
  | case3 seen r =>
    cases h
    exact ⟨[], by simp, rfl⟩
  | case4 seen r _ depth ih =>
    obtain ⟨inner, hbody, rfl⟩ := ih h
    exact ⟨']' :: inner, by simp [hbody], rfl⟩
  | case5 depth seen c r _ _ ih =>
    obtain ⟨inner, hbody, rfl⟩ := ih h
    exact ⟨c :: inner, by simp [hbody], rfl⟩

theorem literal_append (scope : Scope) (seen t : Text) :
    (literal scope seen t).1 ++ (literal scope seen t).2 = seen.reverse ++ t := by
  fun_induction literal scope seen t with
  | case1 => simp
  | case2 => simp
  | case3 seen c r _ ih => simpa using ih

theorem literal_fst (scope : Scope) (seen t : Text) :
    ∃ inner, (literal scope seen t).1 = seen.reverse ++ inner := by
  fun_induction literal scope seen t with
  | case1 => exact ⟨[], by simp⟩
  | case2 => exact ⟨[], by simp⟩
  | case3 seen c r _ ih =>
    obtain ⟨inner, h⟩ := ih
    exact ⟨c :: inner, by simp [h]⟩

/-- Reading a segment takes its source off the front and moves on by its width. -/
theorem next_source {s s' : Reader} {segment : Segment} (h : s.next = .ok (some (segment, s'))) :
    s.rest = segment.source ++ s'.rest ∧ s'.offset = s.offset + segment.source.width ∧
      s'.scope = s.scope := by
  unfold next at h
  split at h
  · cases h
  · rename_i c r hrest
    split at h
    · rename_i hc
      simp only [Bool.and_eq_true, decide_eq_true_eq] at hc
      split at h
      · cases h
      · rename_i d rest hd
        cases h
        have split := List.takeWhile_append_dropWhile (p := (· != '}')) (l := r)
        have hbrace : d = '}' := by
          have := List.head?_dropWhile_not (· != '}') r
          rw [hd] at this
          simpa using this
        rw [hd, hbrace] at split
        exact ⟨by simp [hrest, hc.2, Segment.source, split], rfl, rfl⟩
    · split at h
      · rename_i name inner hopen
        split at h
        · cases h
        · rename_i body rest hclose
          cases h
          obtain ⟨b, hb, hi⟩ := eq_of_closing? hclose
          refine ⟨?_, rfl, rfl⟩
          rw [hrest, eq_of_opening? hopen, hi]
          simp [Segment.source, Span.source, hb]
      · cases h
        refine ⟨?_, rfl, rfl⟩
        rw [hrest]
        exact (literal_append s.scope [] (c :: r)).symm

theorem source_ne_nil {s s' : Reader} {segment : Segment}
    (h : s.next = .ok (some (segment, s'))) : segment.source ≠ [] := by
  unfold next at h
  split at h
  · cases h
  · rename_i c r hrest
    split at h
    · split at h <;> cases h
      simp [Segment.source]
    · split at h
      · split at h <;> cases h
        simp [Segment.source, Span.source]
      · rename_i hopen
        simp only [behind, Except.ok.injEq, Option.some.injEq, Prod.mk.injEq] at h
        obtain ⟨rfl, -⟩ := h
        obtain ⟨t, ht⟩ := literal_fst s.scope [c] r
        have hlit : literal s.scope [] (c :: r) = literal s.scope [c] r := by
          rw [literal]; simp [hopen]
        simp [Segment.source, hlit, ht]

end Reader

end RulesText
