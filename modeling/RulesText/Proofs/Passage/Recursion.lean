/-
Expansion by recursion on the nesting of tags, and its agreement with the stepwise expansion. The
recursive definition says directly what a passage stands for: its segments from left to right, the
body of a tag before the tag. The stepwise expansion keeps the open passages in a list; what such a
state still comes to is its `outcome`, and no step changes it.
-/
import RulesText.Passage.Expand
import RulesText.Proofs.Passage.Reading

namespace RulesText

/-! ## The recursive definition -/

/-- What is still to be read, expanded. A tag is rendered after its body, and also if a replacement
behind it takes the place of the rendering. -/
def Reader.expanded (rank : Rank) (r : Reader) : Logged Failure Text :=
  match h : r.next with
  | .error failure => Logged.fail failure
  | .ok none => pure []
  | .ok (some (.literal text, r')) =>
    have := next_length h
    (text ++ ·) <$> r'.expanded rank
  | .ok (some (.replacement text, r')) =>
    have := next_length h
    (text ++ ·) <$> r'.expanded rank
  | .ok (some (.tag span, r')) => do
    have := next_body_length h
    let body ← (ofBody span).expanded rank
    let rendering ← Expansion.resolve rank span body
    match h' : r'.next with
    | .ok (some (.replacement text, r'')) =>
      have := next_length h
      have := next_length h'
      (text ++ ·) <$> r''.expanded rank
    | _ =>
      have := next_length h
      (rendering ++ ·) <$> r'.expanded rank
termination_by r.rest.length
decreasing_by all_goals omega

namespace Reader

variable {rank : Rank} {r r' r'' : Reader}

theorem expanded_error {failure : Failure} (h : r.next = .error failure) :
    r.expanded rank = Logged.fail failure := by
  rw [expanded]; split <;> simp_all

theorem expanded_none (h : r.next = .ok none) : r.expanded rank = pure [] := by
  rw [expanded]; split <;> simp_all

theorem expanded_literal {text : Text} (h : r.next = .ok (some (.literal text, r'))) :
    r.expanded rank = (text ++ ·) <$> r'.expanded rank := by
  rw [expanded]; split <;> simp_all

theorem expanded_replacement {text : Text} (h : r.next = .ok (some (.replacement text, r'))) :
    r.expanded rank = (text ++ ·) <$> r'.expanded rank := by
  rw [expanded]; split <;> simp_all

/-- What is read behind a tag, expanded and put behind the rendering of that tag; a replacement that
comes next takes the place of the rendering. -/
def expandedBehind (rank : Rank) (rendering : Text) (r : Reader) : Logged Failure Text :=
  match r.next with
  | .ok (some (.replacement text, r')) => (text ++ ·) <$> r'.expanded rank
  | _ => (rendering ++ ·) <$> r.expanded rank

theorem expanded_tag {span : Span} (h : r.next = .ok (some (.tag span, r'))) :
    r.expanded rank = (do
      let body ← (ofBody span).expanded rank
      let rendering ← Expansion.resolve rank span body
      r'.expandedBehind rank rendering) := by
  rw [expanded]
  split
  · simp_all
  · simp_all
  · simp_all
  · simp_all
  · rename_i span' s' h'
    rw [h] at h'
    cases h'
    refine bind_congr fun body => bind_congr fun rendering => ?_
    unfold expandedBehind
    split <;> simp_all

end Reader

/-! ## The failure that is met first -/

namespace Reader

/-- The failure that is met first: from left to right, in the body of a tag before the tag, and in
the rendering of a tag before what stands behind it. -/
inductive Fails (rank : Rank) : Reader → Failure → Prop
  | read {r : Reader} {f : Failure} : r.next = .error f → Fails rank r f
  | literal {r r' : Reader} {text : Text} {f : Failure} :
      r.next = .ok (some (.literal text, r')) → Fails rank r' f → Fails rank r f
  | replacement {r r' : Reader} {text : Text} {f : Failure} :
      r.next = .ok (some (.replacement text, r')) → Fails rank r' f → Fails rank r f
  | body {r r' : Reader} {span : Span} {f : Failure} :
      r.next = .ok (some (.tag span, r')) → Fails rank (ofBody span) f → Fails rank r f
  | rendering {r r' : Reader} {span : Span} {body : Text} {f : Failure} :
      r.next = .ok (some (.tag span, r')) → ((ofBody span).expanded rank).answer = .ok body →
      (Expansion.resolve rank span body).answer = .error f → Fails rank r f
  | behind {r r' : Reader} {span : Span} {body rendering : Text} {f : Failure} :
      r.next = .ok (some (.tag span, r')) → ((ofBody span).expanded rank).answer = .ok body →
      (Expansion.resolve rank span body).answer = .ok rendering → Fails rank r' f → Fails rank r f

variable {rank : Rank} {r r' : Reader}

/-- Only what is read behind a tag can fail behind it, not the choice of what stands for the tag. -/
theorem expandedBehind_error {rendering : Text} {f : Failure} :
    (r.expandedBehind rank rendering).answer = .error f ↔ (r.expanded rank).answer = .error f := by
  unfold expandedBehind
  split
  · rename_i text r' hn
    rw [expanded_replacement hn, Logged.answer_map_error]
  · rw [Logged.answer_map_error]

/-- Expansion fails exactly with the failure that is met first. -/
theorem expanded_eq_error_iff {f : Failure} :
    (r.expanded rank).answer = .error f ↔ r.Fails rank f := by
  constructor
  · intro h
    induction hlen : r.rest.length using Nat.strong_induction_on generalizing r with
    | _ n ih =>
      -- Bodies and what is read behind a segment are both shorter than what is left here.
      have left {s : Reader} (hs : s.rest.length < r.rest.length)
          (h : (s.expanded rank).answer = .error f) : s.Fails rank f := ih _ (hlen ▸ hs) h rfl
      rcases hn : r.next with failure | _ | ⟨text | span | text, r'⟩
      · rw [expanded_error hn] at h
        cases h
        exact .read hn
      · rw [expanded_none hn] at h
        cases h
      · rw [expanded_literal hn, Logged.answer_map_error] at h
        exact .literal hn (left (next_length hn) h)
      · have hbody := next_body_length hn
        rw [expanded_tag hn, Logged.answer_bind_error] at h
        rcases h with h | ⟨body, hb, h⟩
        · exact .body hn (left (by omega) h)
        · rw [Logged.answer_bind_error] at h
          rcases h with h | ⟨rendering, hr, h⟩
          · exact .rendering hn hb h
          · exact .behind hn hb hr (left (by omega) (expandedBehind_error.1 h))
      · rw [expanded_replacement hn, Logged.answer_map_error] at h
        exact .replacement hn (left (next_length hn) h)
  · intro h
    induction h with
    | read hn => rw [expanded_error hn]; rfl
    | literal hn _ ih => rwa [expanded_literal hn, Logged.answer_map_error]
    | replacement hn _ ih => rwa [expanded_replacement hn, Logged.answer_map_error]
    | body hn _ ih => rw [expanded_tag hn, Logged.answer_bind_error]; exact .inl ih
    | rendering hn hb hr =>
      rw [expanded_tag hn, Logged.answer_bind_error]
      exact .inr ⟨_, hb, Logged.answer_bind_error.2 (.inl hr)⟩
    | behind hn hb hr _ ih =>
      rw [expanded_tag hn, Logged.answer_bind_error]
      exact .inr ⟨_, hb, Logged.answer_bind_error.2 (.inr ⟨_, hr, expandedBehind_error.2 ih⟩)⟩

end Reader

/-! ## What a state still comes to -/

/-- A draft followed by what is read behind it; a replacement that comes next takes the place of
the newest piece. -/
def Draft.continued (rank : Rank) (d : Draft) (r : Reader) : Logged Failure Text :=
  match r.next with
  | .ok (some (.replacement text, r')) => ((d.replace text).text ++ ·) <$> r'.expanded rank
  | _ => (d.text ++ ·) <$> r.expanded rank

theorem Draft.continued_of_ne {rank : Rank} {r : Reader}
    (h : ∀ text r', r.next ≠ .ok (some (.replacement text, r'))) (d : Draft) :
    d.continued rank r = (d.text ++ ·) <$> r.expanded rank := by
  unfold continued
  split
  · rename_i text r' hn; exact absurd hn (h text r')
  · rfl

/-- Away from a tag nothing is replaced. -/
theorem Draft.continued_of_afterTag {rank : Rank} {r : Reader} (h : r.afterTag = false)
    (d : Draft) : d.continued rank r = (d.text ++ ·) <$> r.expanded rank :=
  d.continued_of_ne fun _ _ hn => by simp [(Reader.next_replacement hn).1] at h

theorem Draft.continued_add (rank : Rank) (d : Draft) (rendering : Text) (r : Reader) :
    (d.add rendering).continued rank r = (d.text ++ ·) <$> r.expandedBehind rank rendering := by
  unfold continued Reader.expandedBehind
  split <;> simp [← List.append_assoc]

namespace Expansion

variable {rank : Rank}

/-- The text that the outermost passage comes to, once the innermost one has come to `body`. -/
def resumed (rank : Rank) : List Suspended → Text → Logged Failure Text
  | [], body => pure body
  | outer :: suspended, body => do
    let rendering ← resolve rank outer.span body
    let text ← (outer.draft.add rendering).continued rank outer.reader
    resumed rank suspended text

/-- What an expansion under way still comes to, by recursion. -/
def outcome (rank : Rank) (e : Expansion) : Logged Failure Text := do
  let body ← e.draft.continued rank e.reader
  resumed rank e.suspended body

/-- What is made of the result of a step. -/
def Progress.outcome (rank : Rank) : Progress → Logged Failure Text
  | .ongoing e => e.outcome rank
  | .complete text => pure text

/-- A step changes nothing in what an expansion comes to. -/
theorem outcome_step (rank : Rank) (e : Expansion) :
    e.outcome rank = e.step rank >>= Progress.outcome rank := by
  obtain ⟨r, d, suspended⟩ := e
  unfold outcome step
  simp only
  split
  · rename_i failure hn
    rw [Draft.continued_of_ne (by simp [hn]), Reader.expanded_error hn]
    rfl
  · rename_i text r' hn
    rw [Draft.continued_of_ne (by simp [hn]), Reader.expanded_literal hn, pure_bind,
      Progress.outcome, outcome, Draft.continued_of_afterTag (Reader.next_literal hn)]
    simp
  · rename_i text r' hn
    rw [pure_bind, Progress.outcome, outcome,
      Draft.continued_of_afterTag (Reader.next_replacement hn).2.1, Draft.continued, hn]
  · -- The body is begun, and the rendering of its tag is left to `resumed`.
    rename_i span r' hn
    rw [Draft.continued_of_ne (by simp [hn]), Reader.expanded_tag hn, pure_bind,
      Progress.outcome, outcome, Draft.continued_of_afterTag rfl]
    simp [resumed, Draft.continued_add]
  · rename_i hn
    rw [Draft.continued_of_ne (by simp [hn]), Reader.expanded_none hn]
    cases suspended with
    | nil => simp [resumed, Progress.outcome]
    | cons outer suspended => simp [resumed, Progress.outcome, outcome]

/-- A run ends with what its first state comes to, and its records follow those of the past. -/
theorem run_eq (rank : Rank) (past : Journal) (e : Expansion) :
    run rank past e = Logged.after past.reverse (e.outcome rank) := by
  fun_induction run rank past e with
  | case1 past e journal failure h =>
    rw [outcome_step, h]
    simp [Logged.after]
  | case2 past e journal text h =>
    rw [outcome_step, h]
    simp [Logged.after, Progress.outcome]
  | case3 past e journal e' h _ ih =>
    rw [ih, outcome_step rank e, h]
    simp [Logged.after, Progress.outcome]

end Expansion

/-! ## A stack of passages that may be empty -/

/-- An open passage; `span` is the tag whose body it is, if it is one. -/
structure Frame where
  reader : Reader
  draft : Draft := {}
  span : Option Span := none

namespace Frame

/-- A rendering added to the passage on top, if there is one. -/
def stage (rendering : Text) : List Frame → List Frame
  | [] => []
  | top :: frames => { top with draft := top.draft.add rendering } :: frames

/-- A bound on the steps that a stack needs. -/
def size : List Frame → Nat
  | [] => 0
  | top :: frames => top.reader.rest.length + 1 + size frames

theorem size_stage (rendering : Text) (frames : List Frame) :
    size (stage rendering frames) = size frames := by
  cases frames <;> rfl

/-- Reads passages on a stack until one that is no body of a tag is read to its end. A stack that
becomes empty before gives `fallback`. -/
def unstack (rank : Rank) (fallback : Text) : List Frame → Logged Failure Text
  | [] => pure fallback
  | ⟨r, d, span⟩ :: frames =>
    match h : r.next with
    | .error failure => Logged.fail failure
    | .ok (some (.literal text, r')) =>
      have := Reader.next_length h
      unstack rank fallback (⟨r', d.add text, span⟩ :: frames)
    | .ok (some (.replacement text, r')) =>
      have := Reader.next_length h
      unstack rank fallback (⟨r', d.replace text, span⟩ :: frames)
    | .ok (some (.tag inner, r')) =>
      have := Reader.next_body_length h
      unstack rank fallback (⟨.ofBody inner, {}, some inner⟩ :: ⟨r', d, span⟩ :: frames)
    | .ok none =>
      match span with
      | none => pure d.text
      | some span => do
        let rendering ← Expansion.resolve rank span d.text
        have := size_stage rendering frames
        unstack rank fallback (stage rendering frames)
termination_by frames => size frames
decreasing_by all_goals simp only [size]; omega

/-- The passages below the top of the stack of an expansion. -/
def below : List Suspended → List Frame
  | [] => []
  | outer :: suspended =>
    ⟨outer.reader, outer.draft, suspended.head?.map (·.span)⟩ :: below suspended

/-- The stack of an expansion: every passage but the lowest is the body of a tag in the next. -/
def stack (e : Expansion) : List Frame :=
  ⟨e.reader, e.draft, e.suspended.head?.map (·.span)⟩ :: below e.suspended

/-- One turn on the stack of an expansion is one step of it. -/
theorem unstack_step (rank : Rank) (fallback : Text) (e : Expansion) :
    unstack rank fallback (stack e) = e.step rank >>= fun
      | .ongoing e' => unstack rank fallback (stack e')
      | .complete text => pure text := by
  obtain ⟨r, d, suspended⟩ := e
  rw [stack, unstack.eq_def, Expansion.step]
  simp only
  split
  · simp_all [Logged.fail]
  · simp_all [stack]
  · simp_all [stack]
  · simp_all [stack, below]
  · -- Only the lowest passage is no body of a tag, so the stack never becomes empty.
    rename_i hn
    rw [hn]
    cases suspended with
    | nil => rfl
    | cons outer suspended => simp [below, stage, stack]

/-- The stack of an expansion comes to the same text, whatever an empty stack would give. -/
theorem unstack_stack (rank : Rank) (fallback : Text) (e : Expansion) :
    unstack rank fallback (stack e) = e.outcome rank := by
  induction hsize : e.size using Nat.strong_induction_on generalizing e with
  | _ n ih =>
    rw [Expansion.outcome_step, unstack_step]
    rcases hstep : e.step rank with ⟨journal, _ | e' | text⟩
    · rfl
    · have := ih _ (hsize ▸ Expansion.size_step hstep) e' rfl
      simp [Expansion.Progress.outcome, this]
    · rfl

end Frame

/-! ## The two definitions agree -/

theorem expand_eq_expanded (rank : Rank) (t : Text) :
    expand rank t = (Reader.ofText t).expanded rank := by
  rw [expand, Expansion.run_eq, Expansion.outcome, Expansion.ofText,
    Draft.continued_of_afterTag rfl]
  show (([] ++ ·) <$> (Reader.ofText t).expanded rank) >>= pure = _
  simp only [bind_pure, List.nil_append, id_map']

/-- The expansion of a text is its expansion by recursion, records included; it fails exactly with
the failure that recursion meets first; and a stack of open passages comes to the same text or
failure, whatever it would give when it is empty. -/
theorem expand_by_recursion (rank : Rank) (t : Text) :
    expand rank t = (Reader.ofText t).expanded rank ∧
    (∀ f, (expand rank t).answer = .error f ↔ (Reader.ofText t).Fails rank f) ∧
    ∀ fallback, Frame.unstack rank fallback [{ reader := Reader.ofText t }] = expand rank t := by
  refine ⟨expand_eq_expanded rank t, fun f => ?_, fun fallback => ?_⟩
  · rw [expand_eq_expanded, Reader.expanded_eq_error_iff]
  · have := Frame.unstack_stack rank fallback (Expansion.ofText t)
    rw [expand, Expansion.run_eq]
    exact this

end RulesText
