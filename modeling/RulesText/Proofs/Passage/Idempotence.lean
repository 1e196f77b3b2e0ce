/-
Expanding a text twice. Renderings are drawn from the bodies of their tags, and no word of the
library's own has an `@`; so if every `@` of a text opens a tag, expansion leaves none, and the
result expands to itself (`expand_idempotent`).
-/
import RulesText.Proofs.Passage.Journal
import RulesText.Proofs.Passage.Seams
import RulesText.Proofs.Tag.Provenance

namespace RulesText

namespace Reader

variable {rank : Rank} {r r' : Reader} {out : Text}

/-- Every `@` that is still to be read opens a tag, at whatever depth. -/
def AllOpen (r : Reader) : Prop :=
  ∀ before after : Text, r.rest = before ++ '@' :: after →
    ∃ span ∈ r.tags.1, span.start = r.offset + before.width

/-- A segment without tags has no `@`, and those behind it open tags. -/
theorem AllOpen.further {segment : Segment} (h : r.next = .ok (some (segment, r')))
    (tags : r.tags = r'.tags) (all : r.AllOpen) : '@' ∉ segment.source ∧ r'.AllOpen := by
  obtain ⟨rest, offset, -⟩ := next_source h
  constructor
  · intro mem
    obtain ⟨before, after, e⟩ := List.append_of_mem mem
    obtain ⟨span, hspan, start⟩ := all before (after ++ r'.rest) (by rw [rest, e]; simp)
    have := start_of_behind h span (tags ▸ hspan)
    have pos := '@'.utf8Size_pos
    rw [e, Text.width_append, Text.width_cons] at this
    omega
  · intro before after e
    obtain ⟨span, hspan, start⟩ := all (segment.source ++ before) after (by rw [rest, e]; simp)
    rw [Text.width_append] at start
    exact ⟨span, tags ▸ hspan, by omega⟩

/-- The `@` in the body of a tag open the tags there, and those behind it the tags behind. -/
theorem AllOpen.tag {span : Span} {inner : List Span} (h : r.next = .ok (some (.tag span, r')))
    (body : (ofBody span).tags = (inner, none)) (all : r.AllOpen) :
    (ofBody span).AllOpen ∧ r'.AllOpen := by
  have start := (next_tag h).2.1
  have body_start : span.start < span.bodyStart := by
    rw [Span.bodyStart]
    omega
  have stop : span.start + span.source.width = _ := span.stop_eq
  rw [AllOpen, tags_tag h body] at all
  constructor
  · intro before after e
    obtain ⟨rest, offset⟩ := rest_of_tag h
    obtain ⟨other, mem, place⟩ := all ('@' :: span.name ++ ['['] ++ before)
      (after ++ ']' :: r'.rest) (by rw [rest, show span.body.toList = _ from e]; simp)
    rw [show span.body.toList = _ from e, Text.width_append, Text.width_cons] at stop
    rw [Text.width_append, ← Nat.add_assoc, ← offset] at place
    have pos := '@'.utf8Size_pos
    rw [body]
    -- The tag begins in front of its body, and those behind it begin further on.
    rcases List.mem_append.1 mem with mem | mem
    · exact ⟨other, mem, place⟩
    · rcases List.mem_cons.1 mem with rfl | mem
      · omega
      · have : r.offset + span.source.width ≤ other.start := start_of_behind h other mem
        omega
  · intro before after e
    obtain ⟨rest, offset, -⟩ := next_source h
    obtain ⟨other, mem, place⟩ := all (span.source ++ before) after
      (by rw [rest, e]; simp [Segment.source])
    rw [Text.width_append] at place
    rcases List.mem_append.1 mem with mem | mem
    · have := (bounds_of_body span other (by rwa [body])).2
      simp only [Span.stop] at this
      omega
    · rcases List.mem_cons.1 mem with rfl | mem
      · omega
      · exact ⟨other, mem, by rw [offset, place]; simp [Segment.source, Nat.add_assoc]⟩

/-- A passage that is expanded has no open part. -/
theorem closed_of_expanded (h : (r.expanded rank).answer = .ok out) : r.tags.2 = none := by
  obtain ⟨done, -, course⟩ := course_of_tags rank r
  generalize r.tags = tags, r.expanded rank = run at course h
  cases course with
  | complete _ => rfl
  | unclosed _ => cases h
  | unrendered _ _ => cases h

theorem mem_of_expandedBehind {rendering : Text}
    (h : (r.expandedBehind rank rendering).answer = .ok out) :
    ∃ rest, (r.expanded rank).answer = .ok rest ∧ ∀ c ∈ out, c ∈ rendering ∨ c ∈ rest := by
  unfold expandedBehind at h
  split at h
  · rename_i text r' hn
    exact ⟨out, by rwa [expanded_replacement hn], fun c hc => .inr hc⟩
  · obtain ⟨rest, hrest, rfl⟩ := Logged.answer_map_ok.1 h
    exact ⟨rest, hrest, fun c hc => List.mem_append.1 hc⟩

/-- If every `@` opens a tag, none is left. -/
theorem not_mem_expanded (all : r.AllOpen) (h : (r.expanded rank).answer = .ok out) :
    '@' ∉ out := by
  induction r using tags.induct generalizing out with
  | case1 r failure hn =>
    rw [expanded_error hn] at h
    cases h
  | case2 r hn =>
    rw [expanded_none hn] at h
    cases h
    simp
  | case3 r text r' hn _ ih =>
    obtain ⟨plain, behind⟩ := all.further hn (tags_literal hn)
    rw [expanded_literal hn] at h
    obtain ⟨rest, hrest, rfl⟩ := Logged.answer_map_ok.1 h
    exact List.not_mem_append plain (ih behind hrest)
  | case4 r text r' hn _ ih =>
    obtain ⟨plain, behind⟩ := all.further hn (tags_replacement hn)
    rw [expanded_replacement hn] at h
    obtain ⟨rest, hrest, rfl⟩ := Logged.answer_map_ok.1 h
    refine List.not_mem_append (fun mem => plain ?_) (ih behind hrest)
    simp [Segment.source, mem]
  | case5 r span r' hn _ inner failure body ih =>
    rw [expanded_tag hn] at h
    obtain ⟨expanded, hb, -⟩ := Logged.answer_bind_ok.1 h
    have closed := closed_of_expanded hb
    rw [body] at closed
    cases closed
  | case6 r span r' hn _ inner body ihBody ih =>
    obtain ⟨inside, behind⟩ := all.tag hn body
    rw [expanded_tag hn] at h
    obtain ⟨expanded, hb, h⟩ := Logged.answer_bind_ok.1 h
    obtain ⟨rendering, hr, h⟩ := Logged.answer_bind_ok.1 h
    obtain ⟨rest, hrest, chars⟩ := mem_of_expandedBehind h
    have rendered : '@' ∉ rendering :=
      (Tag.render_drawn (Expansion.resolve_ok_iff.1 hr)).not_mem (ihBody inside hb) rfl
    exact fun mem => (chars _ mem).elim rendered (ih behind hrest)

end Reader

/-- If every `@` of a text opens a tag, in the text or in the body of a tag at some depth, then
the text it is expanded to has none, and is expanded to itself at every rank. -/
theorem expand_idempotent {rank : Rank} {t out : Text}
    (opens : ∀ before after : Text, t = before ++ '@' :: after →
      ∃ span ∈ (Reader.ofText t).tags.1, span.start = before.width)
    (h : (expand rank t).answer = .ok out) :
    '@' ∉ out ∧ ∀ rank', expand rank' out = pure out := by
  rw [expand_eq_expanded] at h
  have plain : '@' ∉ out := by
    refine Reader.not_mem_expanded (fun before after e => ?_) h
    simpa [Reader.ofText] using opens before after e
  refine ⟨plain, fun rank' => ?_⟩
  have copied := @Reader.expanded_copied rank' .text out plain [] 0
  rw [List.append_nil] at copied
  rw [expand_eq_expanded, Reader.ofText, copied, Reader.expanded_none rfl]
  simp

/-- The link in the body of a check and the one in a roll are both expanded, and nothing in the
result is expanded again. -/
theorem links_in_bodies :
    (∀ before after : Text,
      "@Check[will|dc:@UUID[a.20]]{save} or @Damage[2d6[@UUID[x.fire]]]".toList =
        before ++ '@' :: after →
      ∃ span ∈ (Reader.ofText
        "@Check[will|dc:@UUID[a.20]]{save} or @Damage[2d6[@UUID[x.fire]]]".toList).tags.1,
        span.start = before.width) ∧
    '@' ∉ "save or 2d6 fire".toList ∧
    ∀ rank, expand rank "save or 2d6 fire".toList = pure "save or 2d6 fire".toList := by
  generalize ht : "@Check[will|dc:@UUID[a.20]]{save} or @Damage[2d6[@UUID[x.fire]]]".toList = t
  have places : ∀ n < t.length, t[n]? = some '@' →
      ∃ span ∈ (Reader.ofText t).tags.1, span.start = Text.width (t.take n) := by
    subst ht
    decide +kernel
  have opens : ∀ before after : Text, t = before ++ '@' :: after →
      ∃ span ∈ (Reader.ofText t).tags.1, span.start = before.width := by
    intro before after e
    simpa [e] using places before.length (by simp [e]) (by simp [e])
  have expanded : (expand {} t).answer = .ok "save or 2d6 fire".toList := by
    subst ht
    decide +kernel
  exact ⟨opens, expand_idempotent opens expanded⟩

end RulesText
