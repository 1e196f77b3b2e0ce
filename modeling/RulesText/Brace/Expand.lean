/-
Resolving the tags of a brace record in passes. A pass renders every innermost tag from left to
right, and passes are made until no tag is left. The words of a tag hold no brace, so each pass
leaves fewer opening braces (`count_lt_of_pass`) and the passes come to an end.
-/
import RulesText.Brace.Braceless
import RulesText.Brace.Typography
import RulesText.Journal

namespace RulesText.Brace

/-- The first tag of a text, with what stands before it and what follows it; `seen` was read
before, newest first. -/
def nextTag (seen : Text) : Text → Option (Text × BraceTag × Text)
  | [] => none
  | c :: r =>
    match BraceTag.read? (c :: r) with
    | some (tag, rest) => some (seen.reverse, tag, rest)
    | none => nextTag (c :: seen) r

def resolve (tag : BraceTag) (offset : Nat) : Logged Failure Text :=
  match tag.render with
  | .ok text => ⟨[.rendered tag.source offset text], .ok text⟩
  | .error gap =>
    ⟨[.unrendered tag.source offset (.unusable gap)],
      .error (.unrendered (.unusable gap) tag.source offset)⟩

theorem eq_of_nextTag {seen t before rest : Text} {tag : BraceTag}
    (h : nextTag seen t = some (before, tag, rest)) :
    seen.reverse ++ t = before ++ tag.source ++ rest ∧
      ∃ inner, BraceTag.read? inner = some (tag, rest) := by
  induction t generalizing seen with
  | nil => cases h
  | cons c r ih =>
    unfold nextTag at h
    split at h
    · rename_i hread
      cases h
      exact ⟨by rw [BraceTag.eq_of_read? hread, List.append_assoc], _, hread⟩
    · simpa using ih h

theorem length_lt_of_nextTag {t before rest : Text} {tag : BraceTag}
    (h : nextTag [] t = some (before, tag, rest)) : rest.length < t.length := by
  have len := congrArg List.length (eq_of_nextTag h).1
  simp only [List.reverse_nil, List.nil_append, BraceTag.source, List.length_append,
    List.length_cons] at len
  omega

/-- One pass over a text that begins at `offset`. -/
def pass (offset : Nat) (t : Text) : Logged Failure Text :=
  match h : nextTag [] t with
  | none => pure t
  | some (before, tag, rest) =>
    have := length_lt_of_nextTag h
    do
      let start := offset + before.width
      let words ← resolve tag start
      (before ++ words ++ ·) <$> pass (start + tag.source.width) rest
termination_by t.length

/-! ## Fewer braces -/

theorem resolve_eq_ok {tag : BraceTag} {offset : Nat} {journal : Journal} {words : Text}
    (h : resolve tag offset = ⟨journal, .ok words⟩) : tag.render = .ok words := by
  unfold resolve at h
  split at h
  · cases h; assumption
  · cases h

theorem count_source_pos (tag : BraceTag) : 0 < tag.source.count '{' := by
  simp [BraceTag.source]

/-- A pass leaves no more opening braces, and fewer if there is a tag. -/
theorem count_pass {offset : Nat} {t t' : Text} {journal : Journal}
    (h : pass offset t = ⟨journal, .ok t'⟩) :
    t'.count '{' ≤ t.count '{' ∧ (nextTag [] t ≠ none → t'.count '{' < t.count '{') := by
  induction hn : t.length using Nat.strongRecOn generalizing offset t t' journal with
  | _ n ih =>
    subst hn
    rw [pass] at h
    split at h
    · rename_i hnone
      cases h
      exact ⟨Nat.le_refl _, fun hne => absurd hnone hne⟩
    · rename_i before tag rest hsome
      obtain ⟨heq, inner, hread⟩ := eq_of_nextTag hsome
      rcases hr : resolve tag (offset + before.width) with ⟨j, _ | words⟩
      · simp [hr] at h
      rcases hp : pass (offset + before.width + tag.source.width) rest with ⟨k, _ | others⟩
      · simp [hr, hp, Logged.after] at h
      simp only [hr, hp, Logged.bind_ok, Logged.map_ok, Logged.after, Logged.mk.injEq,
        Except.ok.injEq] at h
      obtain ⟨-, rfl⟩ := h
      have hwords : words.count '{' = 0 :=
        (BraceTag.render_braceless hread (resolve_eq_ok hr)).count_eq_zero
      have hrest := (ih _ (length_lt_of_nextTag hsome) hp rfl).1
      have hpos := count_source_pos tag
      rw [List.reverse_nil, List.nil_append] at heq
      rw [heq]
      simp only [List.count_append]
      omega

theorem count_lt_of_pass {t t' : Text} {journal : Journal} (hne : nextTag [] t ≠ none)
    (h : pass 0 t = ⟨journal, .ok t'⟩) : t'.count '{' < t.count '{' :=
  (count_pass h).2 hne

/-! ## All passes -/

def resolveAll (t : Text) : Logged Failure Text :=
  if hne : nextTag [] t = none then pure t
  else
    match h : pass 0 t with
    | ⟨journal, .error failure⟩ => ⟨journal, .error failure⟩
    | ⟨journal, .ok t'⟩ =>
      have := count_lt_of_pass hne h
      Logged.after journal (resolveAll t')
termination_by t.count '{'

/-- A brace record with its typography made plain and every tag replaced by its words. Offsets in
the result refer to the text of the pass in which they arise. -/
def expand (t : Text) : Logged Failure Text := resolveAll (normalise t)

end RulesText.Brace
