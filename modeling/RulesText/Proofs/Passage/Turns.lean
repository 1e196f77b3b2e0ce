/-
How many turns an expansion takes. In one turn a segment is read or a passage is closed, and the
characters still to be read and the passages still to be closed are more than the turns that are
left (`Turns.count_le`). A body is taken off the passage around it before it is read on its own, so
no character is paid with twice, and a whole text takes at most one turn more than it has bytes
(`expand_turns`).
-/
import RulesText.Proofs.Passage.Recursion

namespace RulesText

theorem Text.length_le_width (t : Text) : t.length ≤ t.width := by
  induction t with
  | nil => exact Nat.le_refl _
  | cons c t ih =>
    have pos := c.utf8Size_pos
    rw [List.length_cons, width_cons]
    omega

namespace Expansion

/-- How an expansion goes: in how many turns a segment is read, in how many a passage is closed,
and the run that they make up. A turn that fails is counted, and so is the one that closes the
outermost passage. -/
inductive Turns (rank : Rank) : Expansion → Nat → Nat → Logged Failure Text → Prop
  | unread {e : Expansion} {failure : Failure} :
      e.reader.next = .error failure → Turns rank e 1 0 (Logged.fail failure)
  | read {e e' : Expansion} {segment : Segment} {reader : Reader} {read closed : Nat}
      {run : Logged Failure Text} :
      e.reader.next = .ok (some (segment, reader)) → e.step rank = pure (.ongoing e') →
      Turns rank e' read closed run → Turns rank e (read + 1) closed run
  | unrendered {e : Expansion} {journal : Journal} {failure : Failure} :
      e.reader.next = .ok none → e.step rank = ⟨journal, .error failure⟩ →
      Turns rank e 0 1 ⟨journal, .error failure⟩
  | closed {e e' : Expansion} {journal : Journal} {read closed : Nat}
      {run : Logged Failure Text} :
      e.reader.next = .ok none → e.step rank = ⟨journal, .ok (.ongoing e')⟩ →
      Turns rank e' read closed run → Turns rank e read (closed + 1) (Logged.after journal run)
  | complete {e : Expansion} {journal : Journal} {text : Text} :
      e.reader.next = .ok none → e.step rank = ⟨journal, .ok (.complete text)⟩ →
      Turns rank e 0 1 ⟨journal, .ok text⟩

variable {rank : Rank} {e : Expansion} {read closed : Nat} {run : Logged Failure Text}

/-! ## Every expansion ends -/

theorem step_unread {failure : Failure} (h : e.reader.next = .error failure) :
    e.step rank = Logged.fail failure := by
  unfold step
  rw [h]

/-- Reading a segment always goes on and writes no record. -/
theorem step_read (rank : Rank) {segment : Segment} {reader : Reader}
    (h : e.reader.next = .ok (some (segment, reader))) :
    ∃ e', e.step rank = pure (.ongoing e') := by
  unfold step
  rw [h]
  cases segment <;> exact ⟨_, rfl⟩

/-- However an expansion goes, it comes to its outcome. -/
theorem Turns.run_eq (h : Turns rank e read closed run) : run = e.outcome rank := by
  induction h with
  | unread failed =>
    rw [outcome_step, step_unread failed]
    rfl
  | read _ ongoing _ ih => rw [outcome_step, ongoing, pure_bind, ih, Progress.outcome]
  | unrendered _ failed => rw [outcome_step, failed, Logged.bind_error]
  | closed _ ongoing _ ih => rw [outcome_step, ongoing, Logged.bind_ok, ih, Progress.outcome]
  | complete _ ended =>
    rw [outcome_step, ended]
    simp [Progress.outcome, Logged.after]

/-- Every expansion takes some number of turns to its outcome. -/
theorem exists_turns (rank : Rank) (e : Expansion) :
    ∃ read closed, Turns rank e read closed (e.outcome rank) := by
  suffices ∃ read closed run, Turns rank e read closed run by
    obtain ⟨read, closed, run, turns⟩ := this
    exact ⟨read, closed, turns.run_eq ▸ turns⟩
  induction size : e.size using Nat.strong_induction_on generalizing e with
  | _ n ih =>
    subst size
    rcases next : e.reader.next with failure | _ | ⟨segment, reader⟩
    · exact ⟨1, 0, _, .unread next⟩
    · rcases step : e.step rank with ⟨journal, failure | e' | text⟩
      · exact ⟨0, 1, _, .unrendered next step⟩
      · obtain ⟨read, closed, run, turns⟩ := ih _ (size_step step) e' rfl
        exact ⟨read, closed + 1, _, .closed next step turns⟩
      · exact ⟨0, 1, _, .complete next step⟩
    · obtain ⟨e', step⟩ := step_read rank next
      obtain ⟨read, closed, run, turns⟩ := ih _ (size_step step) e' rfl
      exact ⟨read + 1, closed, run, .read next step turns⟩

/-! ## Turns run out -/

/-- An expansion takes no more turns than the characters it has to read and the passages it has to
close. -/
theorem Turns.count_le (h : Turns rank e read closed run) : read + closed ≤ e.size := by
  have pos (e : Expansion) : 1 ≤ e.size := by
    simp only [size]
    omega
  induction h with
  | unread => exact pos _
  | read _ ongoing _ ih =>
    have smaller := size_step ongoing
    omega
  | unrendered => exact pos _
  | closed _ ongoing _ ih =>
    have smaller := size_step ongoing
    omega
  | complete => exact pos _

/-- The expansion of a whole text ends, whether it fails or not and however deep its tags are
nested: it takes at most one turn more than the text has bytes, the segments that are read and the
passages that are closed taken together. -/
theorem expand_turns (rank : Rank) (t : Text) :
    (∃ read closed, Turns rank (ofText t) read closed (expand rank t)) ∧
    ∀ read closed run, Turns rank (ofText t) read closed run →
      run = expand rank t ∧ read + closed ≤ t.width + 1 := by
  have outcome : expand rank t = (ofText t).outcome rank := Expansion.run_eq rank [] (ofText t)
  rw [outcome]
  refine ⟨exists_turns rank _, fun read closed run turns => ⟨turns.run_eq, ?_⟩⟩
  have size : (ofText t).size = t.length + 1 := rfl
  have turned := turns.count_le
  have bytes := t.length_le_width
  omega

/-- A tag and the text in it are read, the body and then the whole text are closed. -/
theorem link_in_four_turns :
    Turns {} (ofText "@UUID[a.B]".toList) 2 2 (expand {} "@UUID[a.B]".toList) ∧
      2 + 2 ≤ Text.width "@UUID[a.B]".toList + 1 := by
  obtain ⟨run, turns⟩ : ∃ run, Turns {} (ofText "@UUID[a.B]".toList) 2 2 run :=
    ⟨_, .read rfl rfl (.read rfl rfl (.closed rfl rfl (.complete rfl rfl)))⟩
  obtain ⟨rfl, bound⟩ := (expand_turns {} _).2 2 2 run turns
  exact ⟨turns, bound⟩

end Expansion

end RulesText
