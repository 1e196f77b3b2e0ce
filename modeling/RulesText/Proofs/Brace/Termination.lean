/-
How many passes a brace record takes. A pass writes one record for each tag that it replaces, and
each of them takes one opening brace away and brings none (`count_of_pass`). A pass is made only
while there is a tag, so there are no more passes than opening braces (`passes_end`), whatever tags
arise from the words and the text around them.
-/
import RulesText.Proofs.Brace.Rewriting

namespace RulesText.Brace

open BraceTag (Complete)

/-! ## The loop -/

/-- How the passes over a text go: how many are made, the last one counted if it fails, and the run
that they make up. -/
inductive Passes : Text → Nat → Logged Failure Text → Prop
  | done {t : Text} : TagFree t → Passes t 0 (pure t)
  | failed {t : Text} {journal : Journal} {failure : Failure} :
      ¬ TagFree t → pass 0 t = ⟨journal, .error failure⟩ → Passes t 1 ⟨journal, .error failure⟩
  | more {t u : Text} {journal : Journal} {n : Nat} {run : Logged Failure Text} :
      ¬ TagFree t → pass 0 t = ⟨journal, .ok u⟩ → Passes u n run →
      Passes t (n + 1) (Logged.after journal run)

variable {t u : Text} {journal : Journal} {n : Nat} {run : Logged Failure Text}

/-- However the passes go, they make up the run that resolves the text. -/
theorem Passes.run_eq (h : Passes t n run) : run = resolveAll t := by
  induction h with
  | done free => rw [resolveAll, dif_pos (nextTag_eq_none_iff.2 free)]
  | failed tagged passed =>
    rw [resolveAll, dif_neg (mt nextTag_eq_none_iff.1 tagged)]
    split
    · rename_i passed'
      cases passed.symm.trans passed'
      rfl
    · rename_i passed'
      cases passed.symm.trans passed'
  | more tagged passed _ ih =>
    rw [resolveAll, dif_neg (mt nextTag_eq_none_iff.1 tagged)]
    split
    · rename_i passed'
      cases passed.symm.trans passed'
    · rename_i passed'
      cases passed.symm.trans passed'
      rw [ih]

/-- The passes come to an end on every text. -/
theorem passes_resolveAll (t : Text) : ∃ n, Passes t n (resolveAll t) := by
  fun_induction resolveAll t with
  | case1 t none => exact ⟨0, .done (nextTag_eq_none_iff.1 none)⟩
  | case2 t tagged journal failure passed =>
    exact ⟨1, .failed (mt nextTag_eq_none_iff.2 tagged) passed⟩
  | case3 t tagged journal u passed _ ih =>
    obtain ⟨n, passes⟩ := ih
    exact ⟨n + 1, .more (mt nextTag_eq_none_iff.2 tagged) passed passes⟩

/-! ## Braces -/

/-- A complete tag has one opening brace, its first character. -/
theorem count_source {tag : BraceTag} (h : tag.Complete) : tag.source.count '{' = 1 := by
  obtain ⟨inner, plain, source⟩ := h.source_eq
  have none : inner.count '{' = 0 := plain.count_eq_zero
  simp [source, none]

theorem resolve_journal_length (tag : BraceTag) (offset : Nat) :
    (resolve tag offset).journal.length = 1 := by
  unfold resolve
  split <;> rfl

/-- Each tag that a pass replaces costs one opening brace and is written down in one record; the
other braces stay. -/
theorem count_of_pass {offset : Nat} (h : pass offset t = ⟨journal, .ok u⟩) :
    u.count '{' + journal.length = t.count '{' := by
  fun_induction pass offset t generalizing u journal with
  | case1 offset t none =>
    cases h
    rfl
  | case2 offset t before tag rest found _ start =>
    rename_i ih
    obtain ⟨complete, rfl⟩ := occurs_of_nextTag found
    have records := resolve_journal_length tag start
    rcases resolved : resolve tag start with ⟨j, _ | words⟩
    · simp [resolved] at h
    rcases passed : pass (start + tag.source.width) rest with ⟨k, _ | others⟩
    · simp [resolved, passed, Logged.after] at h
    simp only [resolved, passed, Logged.bind_ok, Logged.map_ok, Logged.after, Logged.mk.injEq,
      Except.ok.injEq] at h records
    obtain ⟨rfl, rfl⟩ := h
    have gone : words.count '{' = 0 :=
      (complete.words_braceless (resolve_eq_ok resolved)).count_eq_zero
    have behind := ih passed
    simp only [List.count_append, List.length_append, count_source complete, gone]
    omega

/-- There are no more passes than opening braces. -/
theorem Passes.le_count (h : Passes t n run) : n ≤ t.count '{' := by
  induction h with
  | done => exact Nat.zero_le _
  | @failed t _ _ tagged _ =>
    -- There is a tag, and it opens with a brace.
    obtain ⟨⟨before, tag, rest⟩, found⟩ :=
      Option.ne_none_iff_exists'.1 (mt nextTag_eq_none_iff.1 tagged)
    obtain ⟨complete, rfl⟩ := occurs_of_nextTag found
    simp only [List.count_append, count_source complete]
    omega
  | more tagged passed _ ih =>
    have fewer := count_lt_of_pass (mt nextTag_eq_none_iff.1 tagged) passed
    omega

/-! ## The end -/

/-- The passes over a record end, after no more of them than its text has opening braces. A pass
that does not fail takes as many braces away as it writes records, at least one where there is a
tag, since the words of a tag hold no brace. -/
theorem passes_end (t : Text) :
    (∃ n, Passes (normalise t) n (expand t)) ∧
    (∀ n run, Passes (normalise t) n run → run = expand t ∧ n ≤ (normalise t).count '{') ∧
    (∀ u v journal, pass 0 u = ⟨journal, .ok v⟩ → v.count '{' + journal.length = u.count '{' ∧
      (¬ TagFree u → v.count '{' < u.count '{')) ∧
    ∀ tag words, Complete tag → tag.render = .ok words → Braceless words := by
  refine ⟨passes_resolveAll _, fun n run passes => ⟨passes.run_eq, passes.le_count⟩,
    fun u v journal passed => ⟨count_of_pass passed, fun tagged => ?_⟩,
    fun tag words complete render => complete.words_braceless render⟩
  exact count_lt_of_pass (mt nextTag_eq_none_iff.1 tagged) passed

/-- The words of the inner tag complete the outer one, which a second pass replaces. -/
theorem nested_tags_in_two_passes :
    Passes (normalise "{@note {@h}7}".toList) 2 (expand "{@note {@h}7}".toList) ∧
      2 ≤ (normalise "{@note {@h}7}".toList).count '{' ∧
      "{@note On hit: 7}".toList.count '{' < "{@note {@h}7}".toList.count '{' ∧
      Braceless "On hit: ".toList := by
  have start : normalise "{@note {@h}7}".toList = "{@note {@h}7}".toList := by decide +kernel
  have outer : ¬ TagFree "{@note {@h}7}".toList := mt nextTag_eq_none_iff.2 (by decide)
  have inner : ¬ TagFree "{@note On hit: 7}".toList := mt nextTag_eq_none_iff.2 (by decide)
  have free : TagFree "On hit: 7".toList := nextTag_eq_none_iff.1 (by decide)
  have first : pass 0 "{@note {@h}7}".toList =
      ⟨(pass 0 "{@note {@h}7}".toList).journal, .ok "{@note On hit: 7}".toList⟩ := by
    have out : (pass 0 "{@note {@h}7}".toList).answer = .ok "{@note On hit: 7}".toList := by
      decide +kernel
    rw [← out]
  have second : pass 0 "{@note On hit: 7}".toList =
      ⟨(pass 0 "{@note On hit: 7}".toList).journal, .ok "On hit: 7".toList⟩ := by
    have out : (pass 0 "{@note On hit: 7}".toList).answer = .ok "On hit: 7".toList := by
      decide +kernel
    rw [← out]
  have complete : Complete ⟨"h".toList, []⟩ := by decide
  have passes := Passes.more outer first (.more inner second (.done free))
  obtain ⟨-, ends, costs, words⟩ := passes_end "{@note {@h}7}".toList
  rw [start] at ends ⊢
  obtain ⟨run, bound⟩ := ends _ _ passes
  exact ⟨run ▸ passes, bound, (costs _ _ _ first).2 outer, words _ _ complete (by decide)⟩

end RulesText.Brace
