/-
Expanding a text: every tag is replaced by its rendering, inner tags before the tag around them.
The tags whose bodies are being read are kept in a list, so that no depth of nesting is too much,
and each step either reads a segment or closes a tag; `size_step` says that steps run out.
-/
import RulesText.Passage.Draft
import RulesText.Passage.Segment
import RulesText.Tag.Basic

namespace RulesText

/-- A passage that waits for the body of its last tag to be expanded. -/
structure Suspended where
  reader : Reader
  draft : Draft
  span : Span
  deriving DecidableEq, Repr

/-- An expansion under way: the innermost passage, what has been written of it, and the passages
around it, innermost first. -/
structure Expansion where
  reader : Reader
  draft : Draft := {}
  suspended : List Suspended := []
  deriving DecidableEq, Repr

namespace Expansion

/-- The rendering of a tag whose body has been expanded, with a record of it. -/
def resolve (rank : Rank) (span : Span) (body : Text) : Logged Failure Text :=
  match Tag.render rank ⟨span.name, body⟩ with
  | ⟨journal, .ok text⟩ => ⟨journal ++ [.rendered ('@' :: span.name) span.start text], .ok text⟩
  | ⟨journal, .error fault⟩ =>
    ⟨journal ++ [.unrendered span.source span.start fault],
      .error (.unrendered fault span.source span.start)⟩

/-- The result of a step: a text if the expansion is complete, else where it goes on. -/
inductive Progress
  | ongoing (e : Expansion)
  | complete (text : Text)

/-- One step: reads a segment, or at the end of a body renders the tag that it belongs to. -/
def step (rank : Rank) (e : Expansion) : Logged Failure Progress :=
  match e.reader.next with
  | .error failure => Logged.fail failure
  | .ok (some (.literal text, reader)) =>
    pure (.ongoing { e with reader, draft := e.draft.add text })
  | .ok (some (.replacement text, reader)) =>
    pure (.ongoing { e with reader, draft := e.draft.replace text })
  | .ok (some (.tag span, reader)) =>
    pure (.ongoing ⟨Reader.ofBody span, {}, ⟨reader, e.draft, span⟩ :: e.suspended⟩)
  | .ok none =>
    match e.suspended with
    | [] => pure (.complete e.draft.text)
    | outer :: suspended => do
      let text ← resolve rank outer.span e.draft.text
      pure (.ongoing ⟨outer.reader, outer.draft.add text, suspended⟩)

/-! ## Steps run out -/

/-- A bound on the steps that suspended passages need: their characters still to be read, and one
step to close each. -/
def pending : List Suspended → Nat
  | [] => 0
  | s :: suspended => s.reader.rest.length + 1 + pending suspended

/-- A bound on the steps that are left: the characters still to be read and the passages still to
be closed. -/
def size (e : Expansion) : Nat := e.reader.rest.length + 1 + pending e.suspended

/-- Every step that leaves an expansion ongoing makes it smaller. -/
theorem size_step {rank : Rank} {e e' : Expansion} {journal : Journal}
    (h : e.step rank = ⟨journal, .ok (.ongoing e')⟩) : e'.size < e.size := by
  unfold step at h
  split at h
  · cases h
  · rename_i text reader hnext
    cases h
    obtain ⟨hsrc, -, -⟩ := Reader.next_source hnext
    have pos := List.length_pos_iff.2 (Reader.source_ne_nil hnext)
    have len := congrArg List.length hsrc
    simp only [List.length_append] at len
    simp only [size]
    omega
  · rename_i text reader hnext
    cases h
    obtain ⟨hsrc, -, -⟩ := Reader.next_source hnext
    have pos := List.length_pos_iff.2 (Reader.source_ne_nil hnext)
    have len := congrArg List.length hsrc
    simp only [List.length_append] at len
    simp only [size]
    omega
  · rename_i span reader hnext
    cases h
    obtain ⟨hsrc, -, -⟩ := Reader.next_source hnext
    have len := congrArg List.length hsrc
    simp only [Segment.source, Span.source, List.length_append, List.length_cons,
      List.length_nil] at len
    simp only [size, pending, Reader.ofBody]
    omega
  · rename_i hnext
    split at h
    · cases h
    · rename_i outer suspended hsus
      have hresolve : ∃ j text, resolve rank outer.span e.draft.text = ⟨j, .ok text⟩ := by
        rcases hr : resolve rank outer.span e.draft.text with ⟨j, _ | text⟩
        · rw [hr] at h; cases h
        · exact ⟨j, text, rfl⟩
      obtain ⟨j, text, hr⟩ := hresolve
      rw [hr] at h
      cases h
      simp only [size, pending, hsus]
      omega

/-! ## Whole runs -/

/-- Takes steps until the expansion is complete; `past` holds the records so far, newest first. -/
def run (rank : Rank) (past : Journal) (e : Expansion) : Logged Failure Text :=
  match h : e.step rank with
  | ⟨journal, .error failure⟩ => ⟨(journal.reverseAux past).reverse, .error failure⟩
  | ⟨journal, .ok (.complete text)⟩ => ⟨(journal.reverseAux past).reverse, .ok text⟩
  | ⟨journal, .ok (.ongoing e')⟩ =>
    have := size_step h
    run rank (journal.reverseAux past) e'
termination_by e.size

/-- The expansion of a whole text before its first step. -/
def ofText (t : Text) : Expansion := { reader := Reader.ofText t }

end Expansion

/-- A text with every tag replaced by what it stands for. A replacement directly behind a tag takes
the place of the rendering, but the tag has to be renderable all the same. -/
def expand (rank : Rank) (t : Text) : Logged Failure Text :=
  Expansion.run rank [] (Expansion.ofText t)

end RulesText
