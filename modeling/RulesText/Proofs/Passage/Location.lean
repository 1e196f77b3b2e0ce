/-
Where the failures of an expansion lie in the text handed in, at every depth of nesting. An
expansion comes to readers of the text and of bodies in it (`Passage`); the offset of each counts
the bytes in front of it in the whole text, and what is closed around it stays closed. So whatever
fails first is located in the whole text (`located_of_fails`), and a brace is located only where an
expansion fails at it (`expand_error_of_located`).
-/
import RulesText.Proofs.Passage.Brackets
import RulesText.Proofs.Passage.Recursion

namespace RulesText

open Text

/-! ## Tags -/

/-- A name of a tag: letters and points, at least one. -/
structure IsName (t : Text) : Prop where
  chars : t.all Reader.isNameChar = true
  ne_nil : t ≠ []

/-- A closed tag `@name[body]`: the brackets from the first one on come back to depth zero with the
last character and no sooner. -/
def IsTag (t : Text) : Prop :=
  ∃ name body, t = '@' :: name ++ '[' :: body ++ [']'] ∧ IsName name ∧
    Bracketed ('[' :: body ++ [']'])

/-- The body of a tag can be expanded and the tag be rendered with it. -/
def Span.Rendered (rank : Rank) (span : Span) : Prop :=
  ∃ body rendering, ((Reader.ofBody span).expanded rank).answer = .ok body ∧
    (Tag.render rank ⟨span.name, body⟩).answer = .ok rendering

/-- The body of a tag begins behind the `@`, the name and the bracket. -/
theorem Span.bodyStart_eq (span : Span) :
    span.bodyStart = span.start + width ('@' :: span.name ++ ['[']) := by
  simp only [Span.bodyStart, width_append, width_cons, width_nil]
  rw [show '@'.utf8Size = 1 from rfl, show '['.utf8Size = 1 from rfl]
  omega

theorem isTag_of_next {r r' : Reader} {span : Span} (h : r.next = .ok (some (.tag span, r'))) :
    IsTag span.source := by
  obtain ⟨-, -, hname, hadm, -⟩ := Reader.next_tag h
  exact ⟨span.name, span.body.toList, rfl, ⟨hname, Reader.admits_ne_nil hadm⟩,
    (Reader.next_balanced h).bracketed⟩

/-! ## Rendering a tag -/

namespace Expansion

theorem resolve_ok_iff {rank : Rank} {span : Span} {body rendering : Text} :
    (resolve rank span body).answer = .ok rendering ↔
      (Tag.render rank ⟨span.name, body⟩).answer = .ok rendering := by
  unfold resolve
  split <;> rename_i hrender <;> simp [hrender]

/-- A tag that cannot be rendered is reported with its text and the byte at which it begins. -/
theorem resolve_error {rank : Rank} {span : Span} {body : Text} {f : Failure}
    (h : (resolve rank span body).answer = .error f) :
    ∃ fault, f = .unrendered fault span.source span.start := by
  unfold resolve at h
  split at h
  · cases h
  · cases h
    exact ⟨_, rfl⟩

end Expansion

/-! ## The readers that an expansion comes to -/

/-- The readers that the expansion of the text `t` comes to, each with the text before its passage,
the part of the passage that it has read, and the text after the passage. The passages are `t`
itself and the bodies of the tags that are read; behind a tag an expansion reads on once the tag is
rendered. -/
inductive Passage (rank : Rank) (t : Text) : Reader → Text → Text → Text → Prop
  | whole : Passage rank t (.ofText t) [] [] []
  | further {r r' : Reader} {before read after : Text} {segment : Segment} :
      Passage rank t r before read after → r.next = .ok (some (segment, r')) →
      (∀ span, segment = .tag span → span.Rendered rank) →
      Passage rank t r' before (read ++ segment.source) after
  | body {r r' : Reader} {before read after : Text} {span : Span} :
      Passage rank t r before read after → r.next = .ok (some (.tag span, r')) →
      Passage rank t (.ofBody span) (before ++ read ++ '@' :: span.name ++ ['[']) []
        (']' :: r'.rest ++ after)

/-- What a failure says of the text in which it arises. -/
def Located (rank : Rank) (t : Text) : Failure → Prop
  | .unrendered _ source offset =>
    ∃ before after : Text, t = before ++ source ++ after ∧ before.width = offset ∧ IsTag source
  | .unclosed .tag offset =>
    ∃ before name inner : Text, t = before ++ '@' :: name ++ '[' :: inner ∧ before.width = offset ∧
      IsName name ∧ ∀ p, p <+: inner → 0 < depth ('[' :: p)
  | .unclosed .replacement offset =>
    ∃ (r r' : Reader) (before read inner after : Text) (span : Span),
      Passage rank t r before read after ∧ r.next = .ok (some (.tag span, r')) ∧
      r'.rest = '{' :: inner ∧ '}' ∉ inner ∧
      t = before ++ read ++ span.source ++ '{' :: inner ++ after ∧
      (before ++ read ++ span.source).width = offset ∧ IsTag span.source ∧ span.Rendered rank

namespace Passage

variable {rank : Rank} {t before read after : Text} {r r' : Reader} {span : Span} {f : Failure}

/-- Nothing of the text is lost. -/
theorem eq (p : Passage rank t r before read after) : t = before ++ read ++ r.rest ++ after := by
  induction p with
  | whole => simp [Reader.ofText]
  | further _ h _ ih => rw [ih, (Reader.next_source h).1]; simp
  | body _ h ih =>
    rw [ih, (Reader.next_source h).1]
    simp [Segment.source, Span.source, Reader.ofBody]

/-- A reader knows the byte of the whole text at which it reads on. -/
theorem offset (p : Passage rank t r before read after) : r.offset = (before ++ read).width := by
  induction p with
  | whole => rfl
  | further _ h _ ih => rw [(Reader.next_source h).2.1, ih, ← List.append_assoc, ← width_append]
  | @body r r' _ _ _ span _ h ih =>
    show span.bodyStart = _
    rw [span.bodyStart_eq, (Reader.next_tag h).2.1, ih, ← width_append]
    simp

theorem balanced (p : Passage rank t r before read after) (hscope : r.scope = .body) :
    Balanced (read ++ r.rest) := by
  induction p with
  | whole => cases hscope
  | further _ h _ ih =>
    rw [List.append_assoc, ← (Reader.next_source h).1]
    exact ih ((Reader.next_source h).2.2 ▸ hscope)
  | body _ h => exact Reader.next_balanced h

theorem outermost (p : Passage rank t r before read after) (hscope : r.scope = .text) :
    after = [] := by
  induction p with
  | whole => rfl
  | further _ h _ ih => exact ih ((Reader.next_source h).2.2 ▸ hscope)
  | body => cases hscope

/-- A reader behind a tag has read that tag, and the tag was rendered. -/
theorem afterTag (p : Passage rank t r before read after) (h : r.afterTag = true) :
    ∃ (s : Reader) (front : Text) (span : Span), Passage rank t s before front after ∧
      s.next = .ok (some (.tag span, r)) ∧ read = front ++ span.source ∧ span.Rendered rank := by
  cases p with
  | whole => cases h
  | body => cases h
  | @further s _ _ front _ segment p hn hrendered =>
    cases segment with
    | tag span => exact ⟨s, front, span, p, hn, rfl, hrendered span rfl⟩
    | literal text =>
      rw [Reader.next_literal hn] at h
      cases h
    | replacement text =>
      rw [(Reader.next_replacement hn).2.1] at h
      cases h

/-! ## Failures are located -/

/-- A read that fails is located: in a body every tag is closed, so only a tag of the outermost
passage can be open up to the end of the text. -/
theorem located_of_read (p : Passage rank t r before read after) (h : r.next = .error f) :
    Located rank t f := by
  have htext := p.eq
  rcases Reader.next_error h with ⟨rfl, name, inner, hrest, hname, hadm, hclose⟩ |
    ⟨rfl, hafter, inner, hrest, hinner⟩
  · rw [hrest] at htext
    cases hscope : r.scope with
    | body =>
      -- The bracket would be open at the end of a balanced text.
      have hbalanced := p.balanced hscope
      rw [hrest, ← List.append_assoc] at hbalanced
      exact absurd hclose (Reader.closing?_of_balanced hbalanced hname)
    | text =>
      refine ⟨before ++ read, name, inner, ?_, p.offset.symm,
        ⟨hname, Reader.admits_ne_nil hadm⟩, fun q hq => ?_⟩
      · exact htext.trans (by simp [p.outermost hscope])
      · have := Reader.closing?_eq_none hclose q hq
        rw [depth_open]
        omega
  · -- A brace is taken for a replacement only directly behind a tag.
    have hoffset := p.offset
    obtain ⟨s, front, span, hs, hn, rfl, hrendered⟩ := p.afterTag hafter
    rw [hrest, ← List.append_assoc] at htext
    rw [← List.append_assoc] at hoffset
    exact ⟨s, r, before, front, inner, after, span, hs, hn, hrest, hinner, htext, hoffset.symm,
      isTag_of_next hn, hrendered⟩

/-- A tag that cannot be rendered is located. -/
theorem located_of_resolve (p : Passage rank t r before read after) {body : Text}
    (h : r.next = .ok (some (.tag span, r')))
    (hresolve : (Expansion.resolve rank span body).answer = .error f) : Located rank t f := by
  obtain ⟨fault, rfl⟩ := Expansion.resolve_error hresolve
  refine ⟨before ++ read, r'.rest ++ after, ?_, ?_, isTag_of_next h⟩
  · rw [p.eq, (Reader.next_source h).1]
    simp [Segment.source]
  · rw [(Reader.next_tag h).2.1, p.offset]

/-- Whatever fails first behind a reader that the expansion of a text comes to is located in that
text. -/
theorem located_of_fails (p : Passage rank t r before read after) (h : r.Fails rank f) :
    Located rank t f := by
  induction h generalizing before read after with
  | read hn => exact p.located_of_read hn
  | literal hn _ ih | replacement hn _ ih => exact ih (p.further hn nofun)
  | body hn _ ih => exact ih (p.body hn)
  | rendering hn _ hresolve => exact p.located_of_resolve hn hresolve
  | behind hn hbody hresolve _ ih =>
    refine ih (p.further hn ?_)
    rintro span ⟨⟩
    exact ⟨_, _, hbody, Expansion.resolve_ok_iff.1 hresolve⟩

/-- A failure that an expansion comes to is the first one. -/
theorem fails_of_fails (p : Passage rank t r before read after) (h : r.Fails rank f) :
    (Reader.ofText t).Fails rank f := by
  induction p with
  | whole => exact h
  | @further r r' _ _ _ segment _ hn hrendered ih =>
    cases segment with
    | literal text => exact ih (.literal hn h)
    | replacement text => exact ih (.replacement hn h)
    | tag span =>
      obtain ⟨body, rendering, hbody, hrender⟩ := hrendered span rfl
      exact ih (.behind hn hbody (Expansion.resolve_ok_iff.2 hrender) h)
  | body _ hn ih => exact ih (.body hn h)

end Passage

/-- Every failure of an expansion is located in the text handed in. -/
theorem expand_error_located {rank : Rank} {t : Text} {f : Failure}
    (h : (expand rank t).answer = .error f) : Located rank t f := by
  rw [expand_eq_expanded, Reader.expanded_eq_error_iff] at h
  exact Passage.whole.located_of_fails h

/-- The brace at byte 23 is never closed in the body around it, though `}` stands behind that
body. -/
theorem located_in_body :
    (expand {} "é@Damage[1@Check[flat]{x] }".toList).answer = .error (.unclosed .replacement 23) ∧
      Located {} "é@Damage[1@Check[flat]{x] }".toList (.unclosed .replacement 23) :=
  ⟨by decide +kernel, expand_error_located (by decide +kernel)⟩

/-- A brace is located only where the expansion fails at it. -/
theorem expand_error_of_located {rank : Rank} {t : Text} {offset : Nat}
    (h : Located rank t (.unclosed .replacement offset)) :
    (expand rank t).answer = .error (.unclosed .replacement offset) := by
  obtain ⟨r, r', before, read, inner, after, span, p, hn, hrest, hinner, -, hoffset, -,
    hrendered⟩ := h
  have behind : Passage rank t r' before (read ++ span.source) after :=
    p.further hn (by rintro span ⟨⟩; exact hrendered)
  rw [expand_eq_expanded, Reader.expanded_eq_error_iff]
  refine behind.fails_of_fails (.read ?_)
  rw [Reader.next_unclosed (Reader.next_tag hn).1 hrest hinner, behind.offset, ← List.append_assoc,
    hoffset]

/-- The bracket in the replacement opens no tag, so the second brace stands at the top of the text,
where it is closed. -/
example : ¬ Located {} "@UUID[a]{ @foo[ } @UUID[b]{x ] }".toList (.unclosed .replacement 26) :=
  fun h => absurd (expand_error_of_located h) (by decide +kernel)

end RulesText
