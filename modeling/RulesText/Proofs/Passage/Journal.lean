/-
The journal of an expansion. The tags of a passage at every depth are listed in the order in which
they are complete, each behind those in its body (`Reader.tags`); the run renders them in that order
and leaves one record for each, up to the tag or the open part that it fails at (`expand_journal`).
-/
import RulesText.Proofs.Passage.Location
import RulesText.Proofs.Roll.Warnings

namespace RulesText

/-! ## The tags of a passage -/

/-- The byte behind a tag. -/
def Span.stop (span : Span) : Nat := span.start + span.source.width

/-- A tag is complete before another one: it ends in front of it, or it lies in its body. -/
def Span.Before (span other : Span) : Prop :=
  span.stop ≤ other.start ∨ other.bodyStart ≤ span.start ∧ span.stop < other.stop

/-- A tag stands at its byte in a text that begins at byte `base`. -/
def Span.StandsIn (t : Text) (base : Nat) (span : Span) : Prop :=
  ∃ before after : Text, t = before ++ span.source ++ after ∧ span.start = base + before.width

namespace Reader

/-- The tags of a passage at every depth, each behind those in its body, and the failure that ends
the reading if a part is left open. -/
def tags (r : Reader) : List Span × Option Failure :=
  match h : r.next with
  | .error failure => ([], some failure)
  | .ok none => ([], none)
  | .ok (some (.literal _, r')) =>
    have := next_length h
    r'.tags
  | .ok (some (.replacement _, r')) =>
    have := next_length h
    r'.tags
  | .ok (some (.tag span, r')) =>
    have := next_body_length h
    match (ofBody span).tags with
    | (inner, some failure) => (inner, some failure)
    | (inner, none) => (inner ++ span :: r'.tags.1, r'.tags.2)
termination_by r.rest.length
decreasing_by all_goals omega

variable {r r' : Reader} {span : Span}

theorem tags_error {failure : Failure} (h : r.next = .error failure) :
    r.tags = ([], some failure) := by
  rw [tags]; split <;> simp_all

theorem tags_none (h : r.next = .ok none) : r.tags = ([], none) := by
  rw [tags]; split <;> simp_all

theorem tags_literal {text : Text} (h : r.next = .ok (some (.literal text, r'))) :
    r.tags = r'.tags := by
  rw [tags]; split <;> simp_all

theorem tags_replacement {text : Text} (h : r.next = .ok (some (.replacement text, r'))) :
    r.tags = r'.tags := by
  rw [tags]; split <;> simp_all

theorem tags_open {inner : List Span} {failure : Failure}
    (h : r.next = .ok (some (.tag span, r'))) (body : (ofBody span).tags = (inner, some failure)) :
    r.tags = (inner, some failure) := by
  rw [tags]; split <;> simp_all

theorem tags_tag {inner : List Span} (h : r.next = .ok (some (.tag span, r')))
    (body : (ofBody span).tags = (inner, none)) :
    r.tags = (inner ++ span :: r'.tags.1, r'.tags.2) := by
  rw [tags]; split <;> simp_all

end Reader

/-! ## Where the tags stand -/

/-- A tag ends one byte behind its body. -/
theorem Span.stop_eq (span : Span) :
    span.stop = span.bodyStart + Text.width span.body.toList + 1 := by
  rw [stop, span.bodyStart_eq, source]
  simp only [List.cons_append, List.append_assoc, Text.width_append, Text.width_cons,
    Text.width_nil]
  rw [show ']'.utf8Size = 1 from rfl]
  omega

/-- What stands in a part of a text stands in the text. -/
theorem Span.StandsIn.inside {t : Text} {base : Nat} {span : Span} (before after : Text)
    (h : span.StandsIn t (base + before.width)) : span.StandsIn (before ++ t ++ after) base := by
  obtain ⟨front, behind, rfl, start⟩ := h
  refine ⟨before ++ front, behind ++ after, by simp, ?_⟩
  rw [start, Text.width_append]
  omega

/-- A tag that stands in a text begins and ends in it. -/
theorem Span.StandsIn.bounds {t : Text} {base : Nat} {span : Span} (h : span.StandsIn t base) :
    base ≤ span.start ∧ span.start < span.stop ∧ span.stop ≤ base + t.width := by
  obtain ⟨before, after, rfl, start⟩ := h
  have pos : 0 < span.source.width := by
    simp only [source, List.cons_append, Text.width_cons]
    have := '@'.utf8Size_pos
    omega
  simp only [stop, start, Text.width_append]
  omega

namespace Reader

variable {r r' : Reader} {span : Span}

/-- The body of a tag stands behind the `@`, the name and the bracket. -/
theorem rest_of_tag (h : r.next = .ok (some (.tag span, r'))) :
    r.rest = '@' :: span.name ++ ['['] ++ span.body.toList ++ ']' :: r'.rest ∧
      span.bodyStart = r.offset + Text.width ('@' :: span.name ++ ['[']) := by
  constructor
  · rw [(next_source h).1]
    simp [Segment.source, Span.source]
  · rw [span.bodyStart_eq, (next_tag h).2.1]

theorem stands_of_body {inner : Span} (h : r.next = .ok (some (.tag span, r')))
    (stands : inner.StandsIn (ofBody span).rest (ofBody span).offset) :
    inner.StandsIn r.rest r.offset := by
  obtain ⟨rest, offset⟩ := rest_of_tag h
  rw [rest]
  exact Span.StandsIn.inside _ _ (offset ▸ stands)

/-- What stands behind a segment stands in the passage. -/
theorem stands_of_behind {segment : Segment} {other : Span}
    (h : r.next = .ok (some (segment, r'))) (stands : other.StandsIn r'.rest r'.offset) :
    other.StandsIn r.rest r.offset := by
  obtain ⟨rest, offset, -⟩ := next_source h
  rw [offset] at stands
  rw [rest]
  simpa using stands.inside segment.source []

theorem stands_of_next (h : r.next = .ok (some (.tag span, r'))) :
    span.StandsIn r.rest r.offset :=
  ⟨[], r'.rest, by rw [(next_source h).1]; rfl, (next_tag h).2.1⟩

/-- The tags of a passage stand in it, each at its byte. -/
theorem stands_of_tags (r : Reader) : ∀ other ∈ r.tags.1, other.StandsIn r.rest r.offset := by
  fun_induction tags r with
  | case1 r failure hn => simp
  | case2 r hn => simp
  | case3 r text r' hn _ ih | case4 r text r' hn _ ih =>
    exact fun other mem => stands_of_behind hn (ih other mem)
  | case5 r span r' hn _ inner failure body ih =>
    rw [body] at ih
    exact fun other mem => stands_of_body hn (ih other mem)
  | case6 r span r' hn _ inner body ihBody ih =>
    rw [body] at ihBody
    intro other mem
    rcases List.mem_append.1 mem with mem | mem
    · exact stands_of_body hn (ihBody other mem)
    · rcases List.mem_cons.1 mem with rfl | mem
      · exact stands_of_next hn
      · exact stands_of_behind hn (ih other mem)

/-- The tags in the body of a tag end in front of its closing bracket. -/
theorem bounds_of_body (span : Span) :
    ∀ other ∈ (ofBody span).tags.1, span.bodyStart ≤ other.start ∧ other.stop < span.stop := by
  intro other mem
  have := (stands_of_tags (ofBody span) other mem).bounds
  rw [span.stop_eq]
  simp only [ofBody] at this
  omega

/-- The tags behind a segment begin where it ends, or further on. -/
theorem start_of_behind {segment : Segment} (h : r.next = .ok (some (segment, r'))) :
    ∀ other ∈ r'.tags.1, r.offset + segment.source.width ≤ other.start := by
  intro other mem
  have := (stands_of_tags r' other mem).bounds
  rw [(next_source h).2.1] at this
  omega

/-- Of two tags the one that is listed first is complete before the other. -/
theorem tags_ordered (r : Reader) : r.tags.1.Pairwise Span.Before := by
  fun_induction tags r with
  | case1 r failure hn => exact .nil
  | case2 r hn => exact .nil
  | case3 r text r' hn _ ih | case4 r text r' hn _ ih => exact ih
  | case5 r span r' hn _ inner failure body ih =>
    rw [body] at ih
    exact ih
  | case6 r span r' hn _ inner body ihBody ih =>
    have inside := bounds_of_body span
    rw [body] at inside ihBody
    have behind : ∀ other ∈ r'.tags.1, span.stop ≤ other.start := by
      rw [Span.stop, (next_tag hn).2.1]
      exact start_of_behind hn
    rw [List.pairwise_append, List.pairwise_cons]
    refine ⟨ihBody, ⟨fun other mem => .inl (behind other mem), ih⟩, fun first mem other mem' => ?_⟩
    rcases List.mem_cons.1 mem' with rfl | mem'
    · exact .inr (inside first mem)
    · have := (inside first mem).2
      have := behind other mem'
      exact .inl (by omega)

end Reader

/-! ## The course of a run -/

/-- The record of a tag with its rendering. -/
def Span.record (span : Span) (rendering : Text) : Entry :=
  .rendered ('@' :: span.name) span.start rendering

/-- What rendering a tag comes to once the tags in its body are expanded, before anything replaces
the rendering. -/
def Span.RendersTo (rank : Rank) (span : Span) (result : Except TagFault Text) : Prop :=
  ∃ body, ((Reader.ofBody span).expanded rank).answer = .ok body ∧
    (Tag.render rank ⟨span.name, body⟩).answer = result

/-- The records of a journal that are no warnings. -/
def told (journal : Journal) : Journal := journal.filter (·.level ≠ .warn)

@[simp] theorem told_append (j k : Journal) : told (j ++ k) = told j ++ told k := by simp [told]

theorem told_of_warns {ε α : Type} {x : Logged ε α} (h : x.Warns) : told x.journal = [] := by
  simpa [told, Logged.Warns] using h

theorem Tag.render_warns (rank : Rank) (tag : Tag) : (tag.render rank).Warns := by
  unfold render
  split
  · exact .fail _
  · exact .ofExcept _
  · exact (Roll.evaluate_warns rank _).mapError _
  · exact .ofExcept _
  · exact .ofExcept _

/-- The records of some tags with their renderings. -/
def records (done : List (Span × Text)) : Journal := done.map fun p => p.1.record p.2

/-- How a run over a passage with the given tags goes: the tags `done` are rendered and recorded in
order, up to a part that is left open or a tag that cannot be rendered, or all of them. -/
inductive Course (rank : Rank) :
    List Span × Option Failure → Logged Failure Text → List (Span × Text) → Prop
  | complete {journal : Journal} {text : Text} {done : List (Span × Text)} :
      told journal = records done → Course rank (done.map (·.1), none) ⟨journal, .ok text⟩ done
  | unclosed {journal : Journal} {part : Part} {offset : Nat} {done : List (Span × Text)} :
      told journal = records done →
      Course rank (done.map (·.1), some (.unclosed part offset))
        ⟨journal, .error (.unclosed part offset)⟩ done
  | unrendered {journal : Journal} {fault : TagFault} {span : Span} {behind : List Span}
      {failure : Option Failure} {done : List (Span × Text)} :
      told journal = records done → span.RendersTo rank (.error fault) →
      Course rank (done.map (·.1) ++ span :: behind, failure)
        ⟨journal ++ [.unrendered span.source span.start fault],
          .error (.unrendered fault span.source span.start)⟩ done

namespace Course

variable {rank : Rank} {tags : List Span × Option Failure} {run : Logged Failure Text}
  {done : List (Span × Text)}

theorem map (h : Course rank tags run done) (f : Text → Text) :
    Course rank tags (f <$> run) done := by
  cases h with
  | complete said => exact .complete said
  | unclosed said => exact .unclosed said
  | unrendered said fails => exact .unrendered said fails

/-- A run behind tags that are rendered. -/
theorem behind (h : Course rank tags run done) {front : List (Span × Text)} {journal : Journal}
    (before : told journal = records front) :
    Course rank (front.map (·.1) ++ tags.1, tags.2) (Logged.after journal run) (front ++ done) := by
  have both {j : Journal} (h : told j = records done) :
      told (journal ++ j) = records (front ++ done) := by simp [records, before, h]
  cases h with
  | complete said =>
    rw [← List.map_append]
    exact .complete (both said)
  | unclosed said =>
    rw [← List.map_append]
    exact .unclosed (both said)
  | unrendered said fails =>
    rw [Logged.after, ← List.append_assoc, ← List.append_assoc, ← List.map_append]
    exact .unrendered (both said) fails

end Course

namespace Reader

variable {rank : Rank} {r r' : Reader}

/-- Whether a tag is replaced or not, all that is read behind it goes as it does without the tag. -/
theorem course_behind {tags : List Span × Option Failure} {done : List (Span × Text)}
    (h : Course rank tags (r.expanded rank) done) (rendering : Text) :
    Course rank tags (r.expandedBehind rank rendering) done := by
  unfold expandedBehind
  split
  · rename_i text r' hn
    rwa [expanded_replacement hn] at h
  · exact h.map _

section Resolve

variable {span : Span} {body : Text} {journal : Journal}

theorem resolve_rendered {rendering : Text}
    (h : Tag.render rank ⟨span.name, body⟩ = ⟨journal, .ok rendering⟩) :
    Expansion.resolve rank span body = ⟨journal ++ [span.record rendering], .ok rendering⟩ := by
  unfold Expansion.resolve
  rw [h]
  rfl

theorem resolve_unrendered {fault : TagFault}
    (h : Tag.render rank ⟨span.name, body⟩ = ⟨journal, .error fault⟩) :
    Expansion.resolve rank span body =
      ⟨journal ++ [.unrendered span.source span.start fault],
        .error (.unrendered fault span.source span.start)⟩ := by
  unfold Expansion.resolve
  rw [h]

end Resolve

/-- Behind a body that was expanded the tag is rendered and recorded, and then all that stands
behind it; or the run ends with the one record that says why the tag cannot be rendered. -/
theorem course_of_body {span : Span} {tags : List Span × Option Failure}
    {inside done : List (Span × Text)} {journal : Journal} {body : Text}
    (expanded : (ofBody span).expanded rank = ⟨journal, .ok body⟩)
    (said : told journal = records inside) (rendered : ∀ p ∈ done, p.1.RendersTo rank (.ok p.2))
    (course : Course rank tags (r'.expanded rank) done) :
    ∃ behind, (∀ p ∈ behind, p.1.RendersTo rank (.ok p.2)) ∧
      Course rank (inside.map (·.1) ++ span :: tags.1, tags.2)
        (Logged.mk journal (.ok body) >>= fun body => Expansion.resolve rank span body >>=
          fun rendering => r'.expandedBehind rank rendering) (inside ++ behind) := by
  have warns := Tag.render_warns rank ⟨span.name, body⟩
  rw [Logged.bind_ok]
  rcases hr : Tag.render rank ⟨span.name, body⟩ with ⟨j, fault | rendering⟩
  · have fails : span.RendersTo rank (.error fault) := ⟨body, by rw [expanded], by rw [hr]⟩
    have said : told (journal ++ j) = records inside := by
      rw [hr] at warns
      rw [told_append, said, told_of_warns warns, List.append_nil]
    refine ⟨[], by simp, ?_⟩
    rw [resolve_unrendered hr, Logged.bind_error, Logged.after, ← List.append_assoc,
      List.append_nil]
    exact .unrendered said fails
  · have renders : span.RendersTo rank (.ok rendering) := ⟨body, by rw [expanded], by rw [hr]⟩
    have said : told (journal ++ (j ++ [span.record rendering])) =
        records (inside ++ [(span, rendering)]) := by
      rw [hr] at warns
      rw [told_append, told_append, said, told_of_warns warns]
      simp [told, records, Span.record, Entry.level]
    refine ⟨(span, rendering) :: done, List.forall_mem_cons.2 ⟨renders, rendered⟩, ?_⟩
    rw [resolve_rendered hr, Logged.bind_ok, Logged.after_after]
    have next := (course_behind course rendering).behind said
    simpa using next

/-- The run over a passage renders the tags of the passage in order. -/
theorem course_of_tags (rank : Rank) (r : Reader) :
    ∃ done, (∀ p ∈ done, p.1.RendersTo rank (.ok p.2)) ∧
      Course rank r.tags (r.expanded rank) done := by
  induction r using tags.induct with
  | case1 r failure hn =>
    rw [tags_error hn, expanded_error hn]
    refine ⟨[], by simp, ?_⟩
    rcases next_error hn with ⟨rfl, -⟩ | ⟨rfl, -⟩
    · exact @Course.unclosed _ [] .tag _ [] rfl
    · exact @Course.unclosed _ [] .replacement _ [] rfl
  | case2 r hn =>
    rw [tags_none hn, expanded_none hn]
    exact ⟨[], by simp, @Course.complete _ [] [] [] rfl⟩
  | case3 r text r' hn _ ih =>
    obtain ⟨done, rendered, course⟩ := ih
    rw [tags_literal hn, expanded_literal hn]
    exact ⟨done, rendered, course.map _⟩
  | case4 r text r' hn _ ih =>
    obtain ⟨done, rendered, course⟩ := ih
    rw [tags_replacement hn, expanded_replacement hn]
    exact ⟨done, rendered, course.map _⟩
  | case5 r span r' hn _ inner failure body ih =>
    -- A part of the body is left open, so the run ends in the body.
    obtain ⟨done, rendered, course⟩ := ih
    rw [body] at course
    rw [tags_open hn body, expanded_tag hn]
    refine ⟨done, rendered, ?_⟩
    generalize (ofBody span).expanded rank = run at course
    cases course with
    | unclosed said => exact .unclosed said
    | unrendered said fails => exact .unrendered said fails
  | case6 r span r' hn _ inner body ihBody ih =>
    obtain ⟨inside, renderedInside, courseInside⟩ := ihBody
    obtain ⟨done, rendered, course⟩ := ih
    rw [body] at courseInside
    rw [tags_tag hn body, expanded_tag hn]
    generalize expanded : (ofBody span).expanded rank = run at courseInside
    cases courseInside with
    | complete said =>
      obtain ⟨behind, renderedBehind, course⟩ := course_of_body expanded said rendered course
      refine ⟨inside ++ behind, fun p mem => ?_, course⟩
      rcases List.mem_append.1 mem with mem | mem
      · exact renderedInside p mem
      · exact renderedBehind p mem
    | unrendered said fails =>
      refine ⟨inside, renderedInside, ?_⟩
      rw [List.append_assoc]
      exact .unrendered said fails

end Reader

/-! ## The journal of a run -/

/-- The journal of a run over the text `t`, in which the tags `done` were rendered. -/
structure Chronicle (rank : Rank) (t : Text) (run : Logged Failure Text)
    (done : List (Span × Text)) : Prop where
  /-- The tags were rendered in the order in which they are listed, from the first one on. -/
  first : done.map (·.1) <+: (Reader.ofText t).tags.1
  /-- That order is the one in which they are complete. -/
  ordered : (done.map (·.1)).Pairwise Span.Before
  /-- Each stands in the text and has the rendering that is recorded. -/
  rendered : ∀ p ∈ done, p.1.StandsIn t 0 ∧ p.1.RendersTo rank (.ok p.2)
  /-- There is one record for each of them, whether or not it is replaced. -/
  traces : run.journal.filter (·.level = .trace) = records done
  /-- If the run has a text, all tags were rendered and nothing failed. -/
  complete : ∀ text, run.answer = .ok text → (Reader.ofText t).tags = (done.map (·.1), none) ∧
    run.journal.filter (·.level = .debug) = []
  /-- If a tag cannot be rendered, it is the next one, and the last record is about it alone. -/
  unrendered : ∀ fault source offset, run.answer = .error (.unrendered fault source offset) →
    (∃ span behind, (Reader.ofText t).tags.1 = done.map (·.1) ++ span :: behind ∧
      span.source = source ∧ span.start = offset ∧ span.RendersTo rank (.error fault)) ∧
    run.journal.filter (·.level = .debug) = [.unrendered source offset fault] ∧
    run.journal.getLast? = some (.unrendered source offset fault)
  /-- If a part is left open, all tags that are complete in front of it were rendered. -/
  unclosed : ∀ part offset, run.answer = .error (.unclosed part offset) →
    (Reader.ofText t).tags = (done.map (·.1), some (.unclosed part offset)) ∧
    run.journal.filter (·.level = .debug) = []

/-- Levels other than warnings are found among the records that are told. -/
theorem filter_level {level : Level} (ne : level ≠ .warn) (journal : Journal) :
    journal.filter (·.level = level) = (told journal).filter (·.level = level) := by
  rw [told, List.filter_filter]
  refine List.filter_congr fun entry _ => ?_
  by_cases h : entry.level = level
  · simp [h, ne]
  · simp [h]

theorem traces_records (done : List (Span × Text)) :
    (records done).filter (·.level = .trace) = records done := by
  rw [List.filter_eq_self]
  intro entry mem
  obtain ⟨p, -, rfl⟩ := List.mem_map.1 mem
  rfl

theorem debugs_records (done : List (Span × Text)) :
    (records done).filter (·.level = .debug) = [] := by
  rw [List.filter_eq_nil_iff]
  intro entry mem
  obtain ⟨p, -, rfl⟩ := List.mem_map.1 mem
  show ¬ decide (Level.trace = .debug) = true
  decide

/-- The journal of an expansion mirrors its run: it records the tags in the order in which they are
complete, each with its byte and its rendering, and nothing but warnings besides, up to the one
record that says why a tag cannot be rendered. -/
theorem expand_journal (rank : Rank) (t : Text) :
    ∃ done, Chronicle rank t (expand rank t) done := by
  obtain ⟨done, rendered, course⟩ := Reader.course_of_tags rank (Reader.ofText t)
  have stands : ∀ span ∈ (Reader.ofText t).tags.1, span.StandsIn t 0 := Reader.stands_of_tags _
  have ordered := Reader.tags_ordered (Reader.ofText t)
  have trace : Level.trace ≠ .warn := by decide
  have debug : Level.debug ≠ .warn := by decide
  rw [← expand_eq_expanded] at course
  generalize htags : (Reader.ofText t).tags = tags at course stands ordered
  generalize expand rank t = run at course
  have here {first : List Span} (h : first = done.map (·.1))
      (stands : ∀ s ∈ first, s.StandsIn t 0) :
      ∀ p ∈ done, p.1.StandsIn t 0 ∧ p.1.RendersTo rank (.ok p.2) :=
    fun p mem => ⟨stands _ (h ▸ List.mem_map_of_mem mem), rendered p mem⟩
  refine ⟨done, ?_⟩
  cases course with
  | complete said =>
    refine ⟨by rw [htags], ordered, here rfl stands, ?_, fun text _ => ⟨htags, ?_⟩, nofun, nofun⟩
    · rw [filter_level trace, said, traces_records]
    · rw [filter_level debug, said, debugs_records]
  | unclosed said =>
    refine ⟨by rw [htags], ordered, here rfl stands, ?_, nofun, nofun, fun part offset h => ?_⟩
    · rw [filter_level trace, said, traces_records]
    · cases h
      rw [filter_level debug, said, debugs_records]
      exact ⟨htags, rfl⟩
  | @unrendered journal fault span behind failure _ said fails =>
    -- The record of the failure is no trace, and the only one of its level.
    have noTrace : told [Entry.unrendered span.source span.start fault] =
        [Entry.unrendered span.source span.start fault] := by simp [told, Entry.level]
    refine ⟨?_, ?_, here rfl ?_, ?_, nofun, fun fault source offset h => ?_, nofun⟩
    · rw [htags]
      exact List.prefix_append _ _
    · exact (List.pairwise_append.1 ordered).1
    · exact fun s mem => stands s (List.mem_append_left _ mem)
    · rw [filter_level trace, told_append, said, List.filter_append, traces_records, noTrace]
      simp [Entry.level]
    · cases h
      refine ⟨⟨span, behind, by rw [htags], rfl, rfl, fails⟩, ?_, by simp⟩
      rw [filter_level debug, told_append, said, List.filter_append, debugs_records, noTrace]
      simp [Entry.level]

/-- A tag that is replaced has its record as well, behind those of the tags in its body. -/
example :
    (expand {} "@Check[will|dc:@UUID[a.20]]{save} @Check[flat]".toList).journal =
      [.rendered "@UUID".toList 15 "20".toList,
        .rendered "@Check".toList 0 "DC 20 Will save".toList,
        .rendered "@Check".toList 34 "flat check".toList] := by
  decide +kernel

end RulesText
