/-
The segments of a whole passage. Written one after the other they are the passage again, or as much
of it as comes before the failure that ends the reading; tags stand at the bytes that they name and
end where their bracket is first closed, a replacement stands directly behind a tag and is read
wherever one opens there, and a literal goes on exactly up to the next tag (`segments_exact`).
-/
import RulesText.Proofs.Passage.Location
import RulesText.Proofs.Passage.Seams

namespace RulesText

/-! ## Reading to the end -/

/-- The text that some segments were read from. -/
def Segment.written (segments : List Segment) : Text := segments.flatMap Segment.source

@[simp] theorem Segment.written_nil : written [] = [] := rfl

@[simp] theorem Segment.written_append (front behind : List Segment) :
    written (front ++ behind) = written front ++ written behind := List.flatMap_append

@[simp] theorem Segment.written_cons (segment : Segment) (behind : List Segment) :
    written (segment :: behind) = segment.source ++ written behind := List.flatMap_cons

namespace Reader

/-- The segments of a passage in order, and the failure that ends the reading if one does. -/
def segments (r : Reader) : List Segment × Option Failure :=
  match h : r.next with
  | .error failure => ([], some failure)
  | .ok none => ([], none)
  | .ok (some (segment, r')) =>
    have := next_length h
    (segment :: r'.segments.1, r'.segments.2)
termination_by r.rest.length

variable {r s s' : Reader} {segment : Segment} {front behind : List Segment}

theorem segments_error {failure : Failure} (h : r.next = .error failure) :
    r.segments = ([], some failure) := by
  rw [segments]; split <;> simp_all

theorem segments_none (h : r.next = .ok none) : r.segments = ([], none) := by
  rw [segments]; split <;> simp_all

theorem segments_some (h : r.next = .ok (some (segment, s))) :
    r.segments = (segment :: s.segments.1, s.segments.2) := by
  rw [segments]; split <;> simp_all

/-- Reading `front` leads from `r` to the reader behind it. -/
inductive Reads (r : Reader) : List Segment → Reader → Prop
  | start : Reads r [] r
  | next {front : List Segment} {s s' : Reader} {segment : Segment} :
      Reads r front s → s.next = .ok (some (segment, s')) → Reads r (front ++ [segment]) s'

/-- Behind every part of its segments a passage is read on as if the reading began there. -/
theorem reads_of_segments {failure : Option Failure} (h : r.segments = (front ++ behind, failure)) :
    ∃ s, Reads r front s ∧ s.segments = (behind, failure) := by
  induction front using List.reverseRecOn generalizing behind with
  | nil => exact ⟨r, .start, h⟩
  | append_singleton front segment ih =>
    rw [List.append_assoc] at h
    obtain ⟨s, reads, hs⟩ := ih h
    rcases hn : s.next with failure' | _ | ⟨segment', s'⟩
    · rw [segments_error hn] at hs
      simp at hs
    · rw [segments_none hn] at hs
      simp at hs
    · rw [segments_some hn] at hs
      simp only [List.singleton_append, Prod.mk.injEq, List.cons.injEq] at hs
      obtain ⟨⟨rfl, hbehind⟩, hfailure⟩ := hs
      exact ⟨s', reads.next hn, Prod.ext hbehind hfailure⟩

namespace Reads

/-- Reading takes exactly the text of the segments off the front. -/
theorem source (h : Reads r front s) :
    r.rest = Segment.written front ++ s.rest ∧
      s.offset = r.offset + (Segment.written front).width ∧ s.scope = r.scope := by
  induction h with
  | start => simp
  | next _ hn ih =>
    obtain ⟨hrest, hoffset, hscope⟩ := ih
    obtain ⟨hrest', hoffset', hscope'⟩ := next_source hn
    refine ⟨?_, ?_, hscope'.trans hscope⟩
    · rw [hrest, hrest']
      simp
    · rw [hoffset', hoffset]
      simp [Nat.add_assoc]

/-- A reader stands behind a tag only if a tag is the last segment that it has read. -/
theorem afterTag (h : Reads r front s) (hr : r.afterTag = false) (hs : s.afterTag = true) :
    ∃ before span, front = before ++ [.tag span] := by
  cases h with
  | start =>
    rw [hr] at hs
    cases hs
  | @next front s s' segment _ hn =>
    cases segment with
    | literal text =>
      rw [next_literal hn] at hs
      cases hs
    | tag span => exact ⟨front, span, rfl⟩
    | replacement text =>
      rw [(next_replacement hn).2.1] at hs
      cases hs

end Reads

/-! ## Where literals end -/

/-- In a literal no tag opens, and behind it one does unless the passage ends there. -/
theorem literal_ends (scope : Scope) (t : Text) :
    (∀ before after, (literal scope [] t).1 = before ++ after → after ≠ [] →
      opening? scope (after ++ (literal scope [] t).2) = none) ∧
    ((literal scope [] t).2 = [] ∨ opening? scope (literal scope [] t).2 ≠ none) := by
  induction t with
  | nil => simp [literal]
  | cons c t ih =>
    by_cases hopen : opening? scope (c :: t) = none
    · rw [literal_plain hopen]
      obtain ⟨plain, ends⟩ := ih
      refine ⟨fun before after h hne => ?_, ends⟩
      cases before with
      | nil =>
        -- The whole literal and what is behind it are the text itself.
        have whole := literal_append scope [] t
        rw [List.nil_append] at h
        rw [← h, List.cons_append, whole]
        exact hopen
      | cons d before => exact plain before after (List.cons.inj h).2 hne
    · have stop : literal scope [] (c :: t) = ([], c :: t) := by
        rw [literal, if_pos (Option.isSome_iff_ne_none.2 hopen), List.reverse_nil]
      rw [stop]
      refine ⟨fun before after h hne => ?_, .inr hopen⟩
      exact absurd (List.append_eq_nil_iff.1 h.symm).2 hne

theorem literal_of_next {text : Text} (h : r.next = .ok (some (.literal text, s))) :
    literal r.scope [] r.rest = (text, s.rest) := by
  obtain ⟨c, t, hrest, hbrace, hopen⟩ := plain_of_next h
  obtain ⟨rest, offset, scope, afterTag⟩ := r
  obtain rfl : rest = c :: t := hrest
  rw [next_plain hbrace hopen] at h
  cases h
  exact literal_plain hopen

/-- No literal follows a literal. -/
theorem next_ne_literal {text other : Text} (h : r.next = .ok (some (.literal text, s))) :
    s.next ≠ .ok (some (.literal other, s')) := by
  intro hn
  obtain ⟨c, t, hrest, -, hopen⟩ := plain_of_next hn
  have ends := (literal_ends r.scope r.rest).2
  rw [literal_of_next h, hrest, ← (next_source h).2.2, hopen] at ends
  simp at ends

end Reader

/-! ## What a passage is cut into -/

/-- A tag opens at the start of a text: there is an `@`, a name and a bracket, and in a body the
name is that of a family. -/
def Opens (scope : Scope) (t : Text) : Prop :=
  ∃ name inner, t = '@' :: name ++ '[' :: inner ∧ IsName name ∧
    (scope = .body → ∃ family, Family.ofName? name = some family)

theorem Reader.family_of_admits {scope : Scope} {name : Text} (h : admits scope name = true)
    (hscope : scope = .body) : ∃ family, Family.ofName? name = some family := by
  subst hscope
  exact Option.isSome_iff_exists.1 h

theorem Opens.opening?_ne_none {scope : Scope} {t : Text} (h : Opens scope t) :
    Reader.opening? scope t ≠ none := by
  obtain ⟨name, inner, rfl, ⟨chars, ne⟩, known⟩ := h
  have admitted : Reader.admits scope name = true := by
    cases scope with
    | text => simpa [Reader.admits] using ne
    | body => simpa [Reader.admits] using Option.isSome_iff_exists.2 (known rfl)
  rw [Reader.opening?_eq_some_iff.2 ⟨rfl, chars, admitted⟩]
  exact Option.some_ne_none _

/-- The segments of the passage `source`, which begins at byte `base`, and the failure behind
them. -/
structure Segmentation (source : Text) (base : Nat) (scope : Scope) (segments : List Segment)
    (failure : Option Failure) : Prop where
  /-- Without a failure the segments are the whole passage. -/
  whole : failure = none → Segment.written segments = source
  /-- A failure lies where the segments end. -/
  stopped : ∀ f, failure = some f → ∃ rest, source = Segment.written segments ++ rest ∧
    f.offset = base + (Segment.written segments).width
  /-- A tag bears a name that opens one, ends where its bracket is first closed, and knows where it
  and its body begin. -/
  tag : ∀ front span behind, segments = front ++ .tag span :: behind →
    IsName span.name ∧ (scope = .body → ∃ family, Family.ofName? span.name = some family) ∧
    Text.Bracketed ('[' :: span.body.toList ++ [']']) ∧
    span.start = base + (Segment.written front).width ∧
    span.bodyStart = base + (Segment.written front ++ '@' :: span.name ++ ['[']).width
  /-- A replacement stands directly behind a tag and ends at the first brace that closes. -/
  replacement : ∀ front text behind, segments = front ++ .replacement text :: behind →
    '}' ∉ text ∧ ∃ before span, front = before ++ [.tag span]
  /-- A brace directly behind a tag is that of a replacement, be it closed or not. -/
  replaced : ∀ front span behind rest, segments = front ++ .tag span :: behind →
    source = Segment.written (front ++ [.tag span]) ++ '{' :: rest →
    (∃ text after, behind = .replacement text :: after) ∨
      behind = [] ∧ failure = some (.unclosed .replacement
        (base + (Segment.written (front ++ [.tag span])).width))
  /-- A literal is not empty, no other one follows it, and no tag opens at an `@` in it. -/
  literal : ∀ front text behind, segments = front ++ .literal text :: behind →
    text ≠ [] ∧ (∀ other after, behind ≠ .literal other :: after) ∧
    ∀ before after rest, text = before ++ '@' :: after →
      source = Segment.written front ++ text ++ rest → ¬ Opens scope ('@' :: after ++ rest)

namespace Reader

variable {r s s' : Reader} {segment : Segment} {front behind : List Segment}
  {failure : Option Failure}

/-- Where a segment of a passage is read, and what is read behind it. -/
theorem read_of_segments (h : r.segments = (front ++ segment :: behind, failure)) :
    ∃ s s', Reads r front s ∧ s.next = .ok (some (segment, s')) ∧
      s'.segments = (behind, failure) := by
  obtain ⟨s, reads, hs⟩ := reads_of_segments h
  rcases hn : s.next with failure' | _ | ⟨segment', s'⟩
  · rw [segments_error hn] at hs
    cases hs
  · rw [segments_none hn] at hs
    cases hs
  · rw [segments_some hn] at hs
    cases hs
    exact ⟨s, s', reads, hn, rfl⟩

/-- Where the segments of a passage end, and why. -/
theorem end_of_segments (h : r.segments = (front, failure)) :
    ∃ s, Reads r front s ∧ (s.next = .ok none ∧ failure = none ∨
      ∃ f, s.next = .error f ∧ failure = some f) := by
  have all : r.segments = (front ++ [], failure) := by rw [List.append_nil, h]
  obtain ⟨s, reads, hs⟩ := reads_of_segments all
  rcases hn : s.next with f | _ | ⟨segment, s'⟩
  · rw [segments_error hn] at hs
    cases hs
    exact ⟨s, reads, .inr ⟨f, hn, rfl⟩⟩
  · rw [segments_none hn] at hs
    cases hs
    exact ⟨s, reads, .inl ⟨hn, rfl⟩⟩
  · rw [segments_some hn] at hs
    cases hs

theorem next_error_offset {f : Failure} (h : s.next = .error f) : f.offset = s.offset := by
  rcases next_error h with ⟨rfl, -⟩ | ⟨rfl, -⟩ <;> rfl

/-! ## What is read, segment by segment -/

theorem written_of_segments (h : r.segments = (front, none)) : Segment.written front = r.rest := by
  obtain ⟨s, reads, ⟨hn, -⟩ | ⟨f, -, hsome⟩⟩ := end_of_segments h
  · have hrest := reads.source.1
    rw [rest_of_next_none hn, List.append_nil] at hrest
    exact hrest.symm
  · cases hsome

theorem stopped_of_segments {f : Failure} (h : r.segments = (front, some f)) :
    ∃ rest, r.rest = Segment.written front ++ rest ∧
      f.offset = r.offset + (Segment.written front).width := by
  obtain ⟨s, reads, ⟨-, hnone⟩ | ⟨f', hn, hsome⟩⟩ := end_of_segments h
  · cases hnone
  · cases hsome
    obtain ⟨hrest, hoffset, -⟩ := reads.source
    exact ⟨s.rest, hrest, by rw [next_error_offset hn, hoffset]⟩

theorem tag_of_segments {span : Span} (h : r.segments = (front ++ .tag span :: behind, failure)) :
    IsName span.name ∧ (r.scope = .body → ∃ family, Family.ofName? span.name = some family) ∧
      Text.Bracketed ('[' :: span.body.toList ++ [']']) ∧
      span.start = r.offset + (Segment.written front).width := by
  obtain ⟨s, s', reads, hn, -⟩ := read_of_segments h
  obtain ⟨-, hoffset, hscope⟩ := reads.source
  obtain ⟨-, hstart, hname, hadm, -⟩ := next_tag hn
  rw [hscope] at hadm
  exact ⟨⟨hname, admits_ne_nil hadm⟩, family_of_admits hadm, (next_balanced hn).bracketed,
    hstart.trans hoffset⟩

theorem replacement_of_segments {text : Text} (hafter : r.afterTag = false)
    (h : r.segments = (front ++ .replacement text :: behind, failure)) :
    '}' ∉ text ∧ ∃ before span, front = before ++ [.tag span] := by
  obtain ⟨s, s', reads, hn, -⟩ := read_of_segments h
  obtain ⟨hs, -, htext⟩ := next_replacement hn
  exact ⟨htext, reads.afterTag hafter hs⟩

/-- A brace that opens directly behind a tag is read as that of a replacement. -/
theorem replaced_of_segments {span : Span} {rest : Text}
    (h : r.segments = (front ++ .tag span :: behind, failure))
    (hbrace : r.rest = Segment.written (front ++ [.tag span]) ++ '{' :: rest) :
    (∃ text after, behind = .replacement text :: after) ∨
      behind = [] ∧ failure = some (.unclosed .replacement
        (r.offset + (Segment.written (front ++ [.tag span])).width)) := by
  obtain ⟨s, s', reads, hn, hbehind⟩ := read_of_segments h
  obtain ⟨hrest, hoffset, -⟩ := (reads.next hn).source
  rw [hbrace, List.append_cancel_left_eq] at hrest
  rcases next_brace (next_tag hn).1 hrest.symm with ⟨hf, -⟩ | ⟨text, s'', hn'⟩
  · rw [segments_error hf] at hbehind
    cases hbehind
    exact .inr ⟨rfl, by rw [hoffset]⟩
  · rw [segments_some hn'] at hbehind
    cases hbehind
    exact .inl ⟨text, _, rfl⟩

/-- No literal is read directly behind a literal. -/
theorem not_literal_of_segments {text other : Text}
    (h : r.segments = (front ++ .literal text :: behind, failure)) (after : List Segment) :
    behind ≠ .literal other :: after := by
  rintro rfl
  obtain ⟨s, s', reads, hn, hbehind⟩ := read_of_segments h
  rcases hn' : s'.next with f | _ | ⟨segment, s''⟩
  · rw [segments_error hn'] at hbehind
    cases hbehind
  · rw [segments_none hn'] at hbehind
    cases hbehind
  · rw [segments_some hn'] at hbehind
    cases hbehind
    exact next_ne_literal hn hn'

/-- A literal is read up to the next place where a tag opens. -/
theorem opening?_of_segments {text before after rest : Text}
    (h : r.segments = (front ++ .literal text :: behind, failure)) (htext : text = before ++ after)
    (hne : after ≠ []) (hsplit : r.rest = Segment.written front ++ text ++ rest) :
    opening? r.scope (after ++ rest) = none := by
  obtain ⟨s, s', reads, hn, -⟩ := read_of_segments h
  obtain ⟨hrest, -, hscope⟩ := reads.source
  -- What stands behind the literal in the passage is what the reader still has to read.
  have hrest' : rest = s'.rest := by
    rw [hrest, (next_source hn).1, ← List.append_assoc] at hsplit
    exact (List.append_cancel_left hsplit).symm
  have plain := (literal_ends s.scope s.rest).1 before after
  rw [literal_of_next hn] at plain
  rw [hrest', ← hscope]
  exact plain htext hne

end Reader

/-- Reading a passage to its end cuts it into segments and loses nothing of it. -/
theorem segments_exact (source : Text) (base : Nat) (scope : Scope) :
    Segmentation source base scope (Reader.segments ⟨source, base, scope, false⟩).1
      (Reader.segments ⟨source, base, scope, false⟩).2 := by
  constructor
  case whole => exact fun none => Reader.written_of_segments (Prod.ext rfl none)
  case stopped => exact fun f failed => Reader.stopped_of_segments (Prod.ext rfl failed)
  case tag =>
    intro front span behind h
    obtain ⟨name, family, bracketed, start⟩ := Reader.tag_of_segments (Prod.ext h rfl)
    refine ⟨name, family, bracketed, start, ?_⟩
    rw [span.bodyStart_eq, start, Nat.add_assoc, ← Text.width_append, List.append_assoc]
  case replacement =>
    intro front text behind h
    exact Reader.replacement_of_segments rfl (Prod.ext h rfl)
  case replaced =>
    intro front span behind rest h hbrace
    exact Reader.replaced_of_segments (Prod.ext h rfl) hbrace
  case literal =>
    intro front text behind h
    obtain ⟨s, s', -, hn, -⟩ := Reader.read_of_segments (Prod.ext h rfl)
    refine ⟨Reader.source_ne_nil hn, fun other => Reader.not_literal_of_segments (Prod.ext h rfl),
      fun before after rest htext hsplit hopens => hopens.opening?_ne_none ?_⟩
    exact Reader.opening?_of_segments (Prod.ext h rfl) htext (List.cons_ne_nil _ _) hsplit

end RulesText
