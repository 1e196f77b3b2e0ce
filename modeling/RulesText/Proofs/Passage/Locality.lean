/-
Expansion is local. A text that begins later expands to the same words and fails later by as many
bytes (`expanded_moved`), and a separator keeps the text before it and the text behind it apart, so
texts that are joined by one expand one after the other (`expand_separated`).
-/
import RulesText.Proofs.Passage.Seams

namespace RulesText

/-! ## Offsets moved on -/

/-- A failure of a text that begins so many bytes later. -/
def Failure.moved (bytes : Nat) : Failure → Failure
  | .unclosed part offset => .unclosed part (offset + bytes)
  | .unrendered fault source offset => .unrendered fault source (offset + bytes)

def Span.moved (bytes : Nat) (s : Span) : Span := { s with start := s.start + bytes }

def Segment.moved (bytes : Nat) : Segment → Segment
  | .tag span => .tag (span.moved bytes)
  | .literal text => .literal text
  | .replacement text => .replacement text

def Reader.moved (bytes : Nat) (r : Reader) : Reader := { r with offset := r.offset + bytes }

/-- A run that answers as another one does, with its failure moved on. -/
def Logged.Moves {α : Type} (bytes : Nat) (x y : Logged Failure α) : Prop :=
  y.answer = x.answer.mapError (Failure.moved bytes)

namespace Logged.Moves

variable {α β : Type} {bytes : Nat} {x y : Logged Failure α}

theorem map (h : Moves bytes x y) (f : α → β) : Moves bytes (f <$> x) (f <$> y) := by
  rcases x with ⟨j, _ | a⟩ <;> rcases y with ⟨k, _ | b⟩ <;> cases h <;> rfl

theorem bind (h : Moves bytes x y) {f g : α → Logged Failure β} (hfg : ∀ a, Moves bytes (f a) (g a)) :
    Moves bytes (x >>= f) (y >>= g) := by
  rcases x with ⟨j, _ | a⟩ <;> rcases y with ⟨k, _ | b⟩ <;> cases h
  · rfl
  · exact hfg a

end Logged.Moves

namespace Reader

variable {rank : Rank}

theorem behind_moved (bytes : Nat) (r : Reader) (segment : Segment) (rest : Text) (afterTag : Bool) :
    (r.moved bytes).behind (segment.moved bytes) rest afterTag =
      (segment.moved bytes, (r.behind segment rest afterTag).2.moved bytes) := by
  have hwidth : (segment.moved bytes).source = segment.source := by cases segment <;> rfl
  simp only [behind, moved, hwidth, Nat.add_right_comm]

/-- Reading does not depend on where the text begins. -/
theorem next_moved (bytes : Nat) (r : Reader) :
    (r.moved bytes).next = match r.next with
      | .error f => .error (f.moved bytes)
      | .ok none => .ok none
      | .ok (some (segment, r')) => .ok (some (segment.moved bytes, r'.moved bytes)) := by
  obtain ⟨rest, offset, scope, afterTag⟩ := r
  cases rest with
  | nil => rfl
  | cons c t =>
    have read (segment : Segment) (rest : Text) (after : Bool) :
        (.ok (some ((moved bytes ⟨c :: t, offset, scope, afterTag⟩).behind
          (segment.moved bytes) rest after)) : Except Failure _) =
        .ok (some (segment.moved bytes,
          (behind ⟨c :: t, offset, scope, afterTag⟩ segment rest after).2.moved bytes)) := by
      rw [behind_moved]
    unfold next moved
    simp only
    by_cases hbrace : (afterTag && decide (c = '{')) = true
    · rw [if_pos hbrace, if_pos hbrace]
      cases t.dropWhile (· != '}') with
      | nil => rfl
      | cons d rest =>
        exact read (.replacement _) _ _
    · rw [if_neg hbrace, if_neg hbrace]
      rcases opening? scope (c :: t) with _ | ⟨name, inner⟩
      · exact read (.literal _) _ _
      · rcases hclose : closing? 0 "" inner with _ | ⟨body, rest⟩
        · simp only [hclose]
          rfl
        · simp only [hclose]
          exact read (.tag ⟨name, body, offset⟩) _ _

theorem ofBody_moved (bytes : Nat) (span : Span) :
    ofBody (span.moved bytes) = (ofBody span).moved bytes := by
  simp only [ofBody, moved, Span.bodyStart, Span.moved, Reader.mk.injEq, and_true, true_and]
  omega

theorem resolve_moved (bytes : Nat) (span : Span) (body : Text) :
    Logged.Moves bytes (Expansion.resolve rank span body)
      (Expansion.resolve rank (span.moved bytes) body) := by
  unfold Logged.Moves Expansion.resolve Span.moved
  simp only
  split <;> rfl

/-- A passage that begins later expands to the same text, or fails later. -/
theorem expanded_moved (bytes : Nat) (r : Reader) :
    Logged.Moves bytes (r.expanded rank) ((r.moved bytes).expanded rank) := by
  induction hlen : r.rest.length using Nat.strong_induction_on generalizing r with
  | _ n ih =>
    have left {s : Reader} (hs : s.rest.length < r.rest.length) := ih _ (hlen ▸ hs) s rfl
    have hmoved := next_moved bytes r
    rcases hn : r.next with f | _ | ⟨text | span | text, r'⟩ <;> rw [hn] at hmoved
    · rw [expanded_error hn, expanded_error hmoved]
      rfl
    · rw [expanded_none hn, expanded_none hmoved]
      rfl
    · rw [expanded_literal hn, expanded_literal hmoved]
      exact (left (next_length hn)).map _
    · have hlength := next_body_length hn
      rw [expanded_tag hn, expanded_tag hmoved, ofBody_moved]
      refine (left (by omega)).bind fun body => (resolve_moved bytes span body).bind fun rendering => ?_
      -- The same is read behind the tag, and is a replacement in both or in none.
      have hmoved' := next_moved bytes r'
      unfold expandedBehind
      rcases hn' : r'.next with f | _ | ⟨text | span' | text, r''⟩ <;> rw [hn'] at hmoved' <;>
        rw [hmoved']
      case ok.some.replacement =>
        have hlength' := next_length hn'
        exact (left (by omega)).map _
      all_goals exact (left (by omega)).map _
    · rw [expanded_replacement hn, expanded_replacement hmoved]
      exact (left (next_length hn)).map _

end Reader

/-! ## Joined texts -/

/-- A text that keeps apart what stands before it and what stands behind it: it opens no tag, and it
goes on with no name, bracket or replacement. -/
structure Separator (s : Text) : Prop where
  ne_nil : s ≠ []
  plain : '@' ∉ s
  head : ∀ c ∈ s.head?, Reader.isNameChar c = false ∧ c ≠ '[' ∧ c ≠ '{'

namespace Separator

variable {s : Text}

theorem apart (hs : Separator s) (b : Text) : Reader.Apart (s ++ b) := by
  have hhead : (s ++ b).head? = s.head? := by
    obtain ⟨c, t, rfl⟩ := List.exists_cons_of_ne_nil hs.ne_nil
    rfl
  exact ⟨fun c hc => (hs.head c (hhead ▸ hc)).1, fun c hc => (hs.head c (hhead ▸ hc)).2.1,
    fun c hc => (hs.head c (hhead ▸ hc)).2.2⟩

end Separator

/-- Behind a text that leaves no part open, a separator is copied and the next text is expanded as
if it stood alone. -/
theorem expand_append {s : Text} (hs : Separator s) {rank : Rank} {a : Text}
    (ha : (Reader.ofText a).Closes rank) (b : Text) :
    expand rank (a ++ s ++ b) = (do
      let text ← expand rank a
      (text ++ s ++ ·) <$> ((Reader.ofText b).moved (a ++ s).width).expanded rank) := by
  have hjoined := Reader.expanded_append (hs.apart b) ha
  have hbeyond : (Reader.ofText a).beyond (s ++ b) = ⟨s ++ b, a.width, .text, false⟩ := by
    simp [Reader.beyond, Reader.ofText]
  rw [hbeyond, Reader.expanded_copied hs.plain, ← Text.width_append] at hjoined
  rw [expand_eq_expanded, expand_eq_expanded, List.append_assoc]
  show ((Reader.ofText a).append (s ++ b)).expanded rank = _
  rw [hjoined]
  simp [Reader.ofText, Reader.moved]

/-- Texts joined by a separator expand one after the other: to the words of the first, the separator
and the words of the second; or else the second fails as it does alone, but later by the bytes
before it, or the first fails as it does alone. Only a part that the first leaves open can be closed
behind the separator. -/
theorem expand_separated {s : Text} (hs : Separator s) (rank : Rank) (a b : Text) :
    (∀ words, (expand rank a).answer = .ok words →
      (∀ others, (expand rank b).answer = .ok others →
        (expand rank (a ++ s ++ b)).answer = .ok (words ++ s ++ others)) ∧
      ∀ f, (expand rank b).answer = .error f →
        (expand rank (a ++ s ++ b)).answer = .error (f.moved (a ++ s).width)) ∧
    ∀ fault source offset, (expand rank a).answer = .error (.unrendered fault source offset) →
      (expand rank (a ++ s ++ b)).answer = .error (.unrendered fault source offset) := by
  have hsecond : Logged.Moves (a ++ s).width (expand rank b)
      (((Reader.ofText b).moved (a ++ s).width).expanded rank) := by
    rw [expand_eq_expanded]
    exact Reader.expanded_moved _ _
  have hclosed {x : Except Failure Text} (ha : (expand rank a).answer = x)
      (hx : ∀ part offset, x ≠ .error (.unclosed part offset)) : (Reader.ofText a).Closes rank := by
    intro part offset
    rw [← expand_eq_expanded, ha]
    exact hx part offset
  refine ⟨fun words ha => ?_, fun fault source offset ha => ?_⟩
  · have hjoined : (expand rank (a ++ s ++ b)).answer =
        (words ++ s ++ ·) <$> (((Reader.ofText b).moved (a ++ s).width).expanded rank).answer := by
      rw [expand_append hs (hclosed ha (by simp)), Logged.answer_bind, ha]
      rfl
    rw [hjoined, hsecond]
    refine ⟨fun others hb => ?_, fun f hb => ?_⟩
    · rw [hb]
      rfl
    · rw [hb]
      rfl
  · rw [expand_append hs (hclosed ha (by simp)), Logged.answer_bind, ha]
    rfl

/-- Behind the separator a brace replaces no tag before it, a failure is found later by 14 bytes, and
a bracket that closes the open tag of the first text comes too late. -/
theorem comma_separates :
    (expand {} ("@UUID[a.Bé]".toList ++ ", ".toList ++ "{x} @Check[flat]".toList)).answer =
        .ok "Bé, {x} flat check".toList ∧
      (expand {} ("@UUID[a.Bé]".toList ++ ", ".toList ++ "@Check[dc:4]".toList)).answer =
        .error (.unrendered (.unusable .noCheckKind) "@Check[dc:4]".toList 14) ∧
      (expand {} ("@Localize[] @Damage[".toList ++ ", ".toList ++ "1]".toList)).answer =
        .error (.unrendered (.unknownName "Localize".toList) "@Localize[]".toList 0) := by
  have comma : Separator ", ".toList := ⟨by decide, by decide, by simp; decide⟩
  refine ⟨?_, ?_, ?_⟩
  · exact ((expand_separated comma {} _ _).1 "Bé".toList (by decide +kernel)).1
      "{x} flat check".toList (by decide +kernel)
  · exact ((expand_separated comma {} _ _).1 "Bé".toList (by decide +kernel)).2
      (.unrendered (.unusable .noCheckKind) "@Check[dc:4]".toList 0) (by decide +kernel)
  · exact (expand_separated comma {} _ _).2 _ _ _ (by decide +kernel)

end RulesText
