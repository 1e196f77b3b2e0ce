/-
What can go wrong in the body of a tag. A body is balanced and only known names open a tag in it,
and both stay so as it is read on, whatever brackets are hidden in a replacement. So reading a body
fails at nothing but a replacement, and an unknown tag or one that is never closed is a tag of the
text itself and of no body (`body_failures`).
-/
import RulesText.Proofs.Passage.Segmentation

namespace RulesText

open Text (Balanced)

variable {rank : Rank} {t : Text} {r r' s : Reader} {span : Span} {segment : Segment}
  {front : List Segment} {f : Failure}

/-! ## Reading a body -/

namespace Reader

/-- A reader in the body of a tag. The body is balanced as a whole, however much of it was read. -/
structure InBody (r : Reader) : Prop where
  scope : r.scope = .body
  balanced : ∃ read, Balanced (read ++ r.rest)

theorem inBody_of_next (h : r.next = .ok (some (.tag span, r'))) : (ofBody span).InBody :=
  ⟨rfl, [], next_balanced h⟩

namespace InBody

theorem further (p : r.InBody) (h : r.next = .ok (some (segment, r'))) : r'.InBody := by
  obtain ⟨source, -, scope⟩ := next_source h
  obtain ⟨read, balanced⟩ := p.balanced
  exact ⟨scope.trans p.scope, read ++ segment.source, by rwa [List.append_assoc, ← source]⟩

/-- A tag that opens in a body is closed in it, so that only a replacement can be left open. -/
theorem error (p : r.InBody) (h : r.next = .error f) :
    ∃ offset, f = .unclosed .replacement offset := by
  rcases next_error h with ⟨-, name, inner, rest, chars, -, unclosed⟩ | ⟨rfl, -⟩
  · obtain ⟨read, balanced⟩ := p.balanced
    rw [rest, ← List.append_assoc] at balanced
    exact absurd unclosed (closing?_of_balanced balanced chars)
  · exact ⟨_, rfl⟩

theorem known (p : r.InBody) (h : r.next = .ok (some (.tag span, r'))) :
    ∃ family, Family.ofName? span.name = some family :=
  family_of_admits (next_tag h).2.2.2.1 p.scope

theorem reads (p : r.InBody) (h : Reads r front s) : s.InBody := by
  induction h with
  | start => exact p
  | next _ hn ih => exact ih.further hn

end InBody

theorem exists_segments_of_mem (h : segment ∈ r.segments.1) :
    ∃ front behind, r.segments = (front ++ segment :: behind, r.segments.2) := by
  obtain ⟨front, behind, e⟩ := List.append_of_mem h
  exact ⟨front, behind, Prod.ext e rfl⟩

/-- Wherever a tag is emitted it is read. -/
theorem next_of_mem (h : .tag span ∈ r.segments.1) :
    ∃ front s s', Reads r front s ∧ s.next = .ok (some (.tag span, s')) := by
  obtain ⟨front, behind, e⟩ := exists_segments_of_mem h
  obtain ⟨s, s', reads, hn, -⟩ := read_of_segments e
  exact ⟨front, s, s', reads, hn⟩

/-- Where the reading fails a read does, behind all segments. -/
theorem next_of_failed (failed : r.segments.2 = some f) :
    ∃ s, Reads r r.segments.1 s ∧ s.next = .error f := by
  obtain ⟨s, reads, ⟨-, none⟩ | ⟨f', hn, failed'⟩⟩ := end_of_segments (r := r) rfl
  · rw [failed] at none
    cases none
  · rw [failed] at failed'
    cases failed'
    exact ⟨s, reads, hn⟩

/-- All that the segments of a body can be, and all that can end them. -/
theorem InBody.segments (p : r.InBody) :
    (∀ f, r.segments.2 = some f → ∃ offset, f = .unclosed .replacement offset) ∧
    ∀ span, .tag span ∈ r.segments.1 → ∃ family, Family.ofName? span.name = some family := by
  constructor
  · intro f failed
    obtain ⟨s, reads, hn⟩ := next_of_failed failed
    exact (p.reads reads).error hn
  · intro span emitted
    obtain ⟨front, s, s', reads, hn⟩ := next_of_mem emitted
    exact (p.reads reads).known hn

end Reader

/-! ## Failures of the outermost passage -/

theorem Logged.mapError_error {ε ε' α : Type} {g : ε → ε'} {x : Logged ε α} {e : ε'}
    (h : (x.mapError g).answer = .error e) : ∃ e', g e' = e := by
  rcases x with ⟨j, e' | a⟩
  · exact ⟨e', Except.error.inj h⟩
  · cases h

/-- Only the name of a tag can be unknown, and only if no family bears it. -/
theorem Tag.render_unknownName {tag : Tag} {name : Text}
    (h : (tag.render rank).answer = .error (.unknownName name)) :
    Family.ofName? tag.name = none ∧ name = tag.name := by
  have unusable {x : Except Gap Text} :
      (Logged.ofExcept (x.mapError TagFault.unusable)).answer ≠ .error (.unknownName name) := by
    cases x <;> exact nofun
  unfold render at h
  split at h
  · rename_i unknown
    cases h
    exact ⟨unknown, rfl⟩
  · exact absurd h unusable
  · obtain ⟨fault, e⟩ := Logged.mapError_error h
    cases e
  · exact absurd h unusable
  · exact absurd h unusable

theorem Expansion.fault_of_resolve {body source : Text} {fault : TagFault} {offset : Nat}
    (h : (resolve rank span body).answer = .error (.unrendered fault source offset)) :
    (Tag.render rank ⟨span.name, body⟩).answer = .error fault ∧ source = span.source ∧
      offset = span.start := by
  unfold resolve at h
  split at h
  · cases h
  · rename_i hrender
    cases h
    rw [hrender]
    exact ⟨rfl, rfl, rfl⟩

/-- An unknown tag, or one that is never closed. -/
def Failure.Outermost : Failure → Prop
  | .unclosed .tag _ => True
  | .unrendered (.unknownName _) _ _ => True
  | _ => False

theorem Reader.InBody.not_outermost (p : r.InBody) (h : r.Fails rank f) : ¬ f.Outermost := by
  induction h with
  | read hn =>
    obtain ⟨offset, rfl⟩ := p.error hn
    exact id
  | literal hn _ ih => exact ih (p.further hn)
  | replacement hn _ ih => exact ih (p.further hn)
  | body hn _ ih => exact ih (inBody_of_next hn)
  | rendering hn _ hr =>
    obtain ⟨fault, rfl⟩ := Expansion.resolve_error hr
    obtain ⟨family, known⟩ := p.known hn
    cases fault with
    | unknownName name =>
      have unknown := (Tag.render_unknownName (Expansion.fault_of_resolve hr).1).1
      rw [known] at unknown
      cases unknown
    | unusable | badRoll => exact id
  | behind hn _ _ _ ih => exact ih (p.further hn)

/-- The failure is seen in the segments of the passage: there is a tag that has the unknown name, or
the segments end at the tag that is never closed. -/
def Reader.Shows (r : Reader) : Failure → Prop
  | .unclosed .tag offset => r.segments.2 = some (.unclosed .tag offset)
  | .unrendered (.unknownName name) source offset =>
    ∃ span, .tag span ∈ r.segments.1 ∧ span.name = name ∧ span.source = source ∧
      span.start = offset
  | _ => True

namespace Reader

theorem shows_of_not_outermost (h : ¬ f.Outermost) : r.Shows f := by
  unfold Failure.Outermost at h
  unfold Shows
  split at h
  · exact absurd trivial h
  · exact absurd trivial h
  · trivial

theorem Shows.of_next (h : r'.Shows f) (hn : r.next = .ok (some (segment, r'))) : r.Shows f := by
  unfold Shows at h ⊢
  rw [segments_some hn]
  split
  · exact h
  · obtain ⟨span, emitted, rest⟩ := h
    exact ⟨span, List.mem_cons_of_mem _ emitted, rest⟩
  · trivial

/-- What fails first in a passage is seen in its segments, if it is an unknown tag or one that is
never closed. -/
theorem shows_of_fails (h : r.Fails rank f) : r.Shows f := by
  induction h with
  | read hn =>
    rcases next_error hn with ⟨rfl, -⟩ | ⟨rfl, -⟩
    · exact congrArg Prod.snd (segments_error hn)
    · trivial
  | literal hn _ ih => exact ih.of_next hn
  | replacement hn _ ih => exact ih.of_next hn
  | body hn inside =>
    -- Neither failure comes from a body, so there is nothing to be seen here.
    exact shows_of_not_outermost ((inBody_of_next hn).not_outermost inside)
  | @rendering r r' span body f hn _ hr =>
    obtain ⟨fault, rfl⟩ := Expansion.resolve_error hr
    cases fault with
    | unknownName name =>
      have own := (Tag.render_unknownName (Expansion.fault_of_resolve hr).1).2
      exact ⟨span, by rw [segments_some hn]; exact List.mem_cons_self, own.symm, rfl, rfl⟩
    | unusable | badRoll => trivial
  | behind hn _ _ _ ih => exact ih.of_next hn

end Reader

/-! ## Tags at every depth -/

/-- The tags of a text, with the number of bodies that they stand in. -/
inductive Emitted (t : Text) : Nat → Span → Prop
  | text {span : Span} : .tag span ∈ (Reader.ofText t).segments.1 → Emitted t 0 span
  | body {depth : Nat} {outer span : Span} : Emitted t depth outer →
      .tag span ∈ (Reader.ofBody outer).segments.1 → Emitted t (depth + 1) span

theorem Emitted.inBody {depth : Nat} (h : Emitted t depth span) : (Reader.ofBody span).InBody := by
  cases h with
  | text emitted | body _ emitted =>
    obtain ⟨front, s, s', -, hn⟩ := Reader.next_of_mem emitted
    exact Reader.inBody_of_next hn

namespace Reader

/-- A tag of a passage lies in it. -/
theorem span_in_passage (h : .tag span ∈ r.segments.1) :
    r.offset ≤ span.start ∧ span.start + span.source.width ≤ r.offset + r.rest.width := by
  obtain ⟨front, s, s', reads, hn⟩ := next_of_mem h
  obtain ⟨rest, offset, -⟩ := reads.source
  have start : span.start = s.offset := (next_tag hn).2.1
  have source : s.rest = span.source ++ s'.rest := (next_source hn).1
  rw [rest, source]
  simp only [Text.width_append]
  omega

theorem Reads.span_before (h : Reads r front s) (mem : .tag span ∈ front) :
    span.start + span.source.width ≤ s.offset := by
  induction h with
  | start => cases mem
  | @next front s s' segment _ hn ih =>
    have further : s'.offset = s.offset + segment.source.width := (next_source hn).2.1
    rcases List.mem_append.1 mem with before | last
    · have := ih before
      omega
    · obtain rfl := List.mem_singleton.1 last
      have start : span.start = s.offset := (next_tag hn).2.1
      rw [start, further]
      exact Nat.le_refl _

/-- Two tags of a passage do not overlap. -/
theorem span_before_span {a b : Span} (ha : .tag a ∈ r.segments.1) (hb : .tag b ∈ r.segments.1)
    (lt : a.start < b.start) : a.start + a.source.width ≤ b.start := by
  obtain ⟨front, behind, e⟩ := exists_segments_of_mem hb
  obtain ⟨s, s', reads, hn, rest⟩ := read_of_segments e
  have start : b.start = s.offset := (next_tag hn).2.1
  rw [e, List.mem_append, List.mem_cons] at ha
  rcases ha with before | same | after
  · exact start ▸ reads.span_before before
  · cases same
    exact absurd lt (Nat.lt_irrefl _)
  · have further : s'.offset = s.offset + b.source.width := (next_source hn).2.1
    have := (span_in_passage (r := s') (by rw [rest]; exact after)).1
    omega

/-- A tag that is never closed stands behind all the tags of its passage. -/
theorem span_before_failure (h : .tag span ∈ r.segments.1) (failed : r.segments.2 = some f) :
    span.start + span.source.width ≤ f.offset := by
  obtain ⟨s, reads, hn⟩ := next_of_failed failed
  rw [next_error_offset hn]
  exact reads.span_before h

end Reader

theorem Span.body_inside (span : Span) :
    span.start < span.bodyStart ∧
      span.bodyStart + Text.width span.body.toList < span.start + span.source.width := by
  have opens := '@'.utf8Size_pos
  have closes := ']'.utf8Size_pos
  simp only [span.bodyStart_eq, source, Text.width_append, Text.width_cons, Text.width_nil]
  omega

theorem Emitted.around {depth : Nat} (h : Emitted t (depth + 1) span) :
    ∃ outer, Emitted t depth outer ∧ outer.start < span.start ∧
      span.start + span.source.width < outer.start + outer.source.width := by
  cases h with
  | @body _ outer _ around emitted =>
    have starts : outer.bodyStart ≤ span.start := (Reader.span_in_passage emitted).1
    have stops : span.start + span.source.width ≤
        outer.bodyStart + Text.width outer.body.toList := (Reader.span_in_passage emitted).2
    have inside := outer.body_inside
    exact ⟨outer, around, by omega, by omega⟩

/-- A tag in a body lies in a tag of the text itself. -/
theorem Emitted.inside {depth : Nat} (h : Emitted t (depth + 1) span) :
    ∃ outer, .tag outer ∈ (Reader.ofText t).segments.1 ∧ outer.start < span.start ∧
      span.start + span.source.width < outer.start + outer.source.width := by
  obtain ⟨outer, around, starts, stops⟩ := h.around
  induction depth generalizing span outer with
  | zero =>
    cases around with
    | text emitted => exact ⟨outer, emitted, starts, stops⟩
  | succ depth ih =>
    obtain ⟨outer', around', starts', stops'⟩ := around.around
    obtain ⟨outermost, emitted, starts'', stops''⟩ := ih around outer' around' starts' stops'
    exact ⟨outermost, emitted, by omega, by omega⟩

/-- No tag in a body begins where a tag of the text itself does. -/
theorem Emitted.depth_eq_zero {depth : Nat} {top : Span} (h : Emitted t depth span)
    (emitted : .tag top ∈ (Reader.ofText t).segments.1) (same : span.start = top.start) :
    depth = 0 := by
  cases depth with
  | zero => rfl
  | succ depth =>
    -- The tag around it would begin in front of `top` and end behind the start of `top`.
    obtain ⟨outer, outermost, starts, stops⟩ := h.inside
    have apart := Reader.span_before_span outermost emitted (by omega)
    omega

/-- A tag of the text that is never closed stands behind the tags at every depth. -/
theorem Emitted.before_failure {depth : Nat} (h : Emitted t depth span)
    (failed : (Reader.ofText t).segments.2 = some f) :
    span.start + span.source.width ≤ f.offset := by
  cases depth with
  | zero =>
    cases h with
    | text emitted => exact Reader.span_before_failure emitted failed
  | succ depth =>
    obtain ⟨outer, outermost, -, stops⟩ := h.inside
    have := Reader.span_before_failure outermost failed
    omega

/-! ## Bodies and the text -/

/-- The body of a tag, however deep the tag stands, is read to its end or up to a replacement that
is never closed, and every tag in it has a known name. So where an expansion fails at an unknown
name, or at a tag that is never closed, that is a tag of the text itself and of no body. -/
theorem body_failures (rank : Rank) (t : Text) :
    (∀ depth span, Emitted t depth span →
      (∀ f, (Reader.ofBody span).segments.2 = some f →
        ∃ offset, f = .unclosed .replacement offset) ∧
      ∀ inner, .tag inner ∈ (Reader.ofBody span).segments.1 →
        ∃ family, Family.ofName? inner.name = some family) ∧
    (∀ name source offset,
      (expand rank t).answer = .error (.unrendered (.unknownName name) source offset) →
      (∃ span, .tag span ∈ (Reader.ofText t).segments.1 ∧ span.name = name ∧
        span.source = source ∧ span.start = offset) ∧
      ∀ depth span, Emitted t depth span → span.start = offset → depth = 0) ∧
    ∀ offset, (expand rank t).answer = .error (.unclosed .tag offset) →
      (Reader.ofText t).segments.2 = some (.unclosed .tag offset) ∧
      ∀ depth span, Emitted t depth span → span.start + span.source.width ≤ offset := by
  refine ⟨fun depth span emitted => emitted.inBody.segments, fun name source offset h => ?_,
    fun offset h => ?_⟩
  · rw [expand_eq_expanded, Reader.expanded_eq_error_iff] at h
    obtain ⟨top, emitted, rfl, rfl, rfl⟩ := Reader.shows_of_fails h
    exact ⟨⟨top, emitted, rfl, rfl, rfl⟩, fun depth span h same => h.depth_eq_zero emitted same⟩
  · rw [expand_eq_expanded, Reader.expanded_eq_error_iff] at h
    have failed : (Reader.ofText t).segments.2 = some (.unclosed .tag offset) :=
      Reader.shows_of_fails h
    exact ⟨failed, fun depth span h => h.before_failure failed⟩

/-- The replacement in the body of the first text is never closed. That of the other two opens a
bracket, and all the same the tag in front of it is known, and only the tag behind the body is
not known, or is never closed. -/
theorem body_failures_three :
    (∃ offset, (Reader.ofBody ⟨"Damage".toList, "1@Check[flat]".push '{', 0⟩).segments.2 =
      some (.unclosed .replacement offset)) ∧
    (∃ family, Family.ofName? "Check".toList = some family) ∧
    (∃ span, .tag span ∈ (Reader.ofText "@UUID[@Check[flat]{[}a]]@Foo[]".toList).segments.1 ∧
      span.name = "Foo".toList ∧ span.source = "@Foo[]".toList ∧ span.start = 24) ∧
    (Reader.ofText "@UUID[@Check[flat]{[}a]]@Foo[".toList).segments.2 =
      some (.unclosed .tag 24) := by
  refine ⟨?_, ?_, ?_, ?_⟩
  · have damage : Emitted ("@Damage[1@Check[flat]".toList ++ ['{', ']']) 0
        ⟨"Damage".toList, "1@Check[flat]".push '{', 0⟩ := .text (by decide +kernel)
    have failed : (Reader.ofBody ⟨"Damage".toList, "1@Check[flat]".push '{', 0⟩).segments.2 =
        some (.unclosed .replacement 21) := by decide +kernel
    obtain ⟨offset, e⟩ := ((body_failures {} _).1 0 _ damage).1 _ failed
    exact ⟨offset, by rw [failed, e]⟩
  · have uuid : Emitted "@UUID[@Check[flat]{[}a]]@Foo[]".toList 0
        ⟨"UUID".toList, "@Check[flat]{[}a]", 0⟩ := .text (by decide +kernel)
    exact ((body_failures {} _).1 0 _ uuid).2 ⟨"Check".toList, "flat", 6⟩ (by decide +kernel)
  · exact ((body_failures {} _).2.1 "Foo".toList "@Foo[]".toList 24 (by decide +kernel)).1
  · exact ((body_failures {} _).2.2 24 (by decide +kernel)).1

end RulesText
