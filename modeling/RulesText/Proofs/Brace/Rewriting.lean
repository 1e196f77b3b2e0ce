/-
Resolving the tags of a brace record in any order. A step replaces one complete tag by its words;
steps at different tags commute and every step takes a brace away, so all ways of resolving a text
end in one result. The passes are one of these ways, and so the order does not matter for what
`expand` gives (`expand_in_any_order`).
-/
import Mathlib.Control.Monad.Basic
import Mathlib.Logic.Relation
import RulesText.Proofs.Brace.Occurrence

namespace RulesText.Brace

open Relation (ReflTransGen)
open BraceTag (Occurs Complete)

/-! ## Steps -/

/-- One complete tag, wherever it stands, is replaced by its words. -/
inductive Step : Text → Text → Prop
  | mk {tag : BraceTag} {before rest words t : Text} :
      tag.Occurs before rest t → tag.render = .ok words → Step t (before ++ words ++ rest)

/-- A text is reached from another by steps, none or more. -/
abbrev Steps : Text → Text → Prop := ReflTransGen Step

/-- A complete tag that has no words stands in a text. -/
def Fails (t : Text) : Prop :=
  ∃ tag before rest gap, Occurs tag before rest t ∧ tag.render = .error gap

variable {t u v : Text}

/-- The words of a tag hold no brace, so a step takes the opening brace of its tag away. -/
theorem Step.count_lt (h : Step t u) : u.count '{' < t.count '{' := by
  cases h with
  | @mk tag before rest words t occurs render =>
    obtain ⟨complete, rfl⟩ := occurs
    have gone := (complete.words_braceless render).count_eq_zero
    have opens := count_source_pos tag
    simp only [List.count_append, gone]
    omega

/-- Two tags that stand apart can be replaced in either order. -/
theorem step_commute {tag tag' : BraceTag} {words words' : Text} (h : tag.Complete)
    (h' : tag'.Complete) (render : tag.render = .ok words) (render' : tag'.render = .ok words')
    (before mid rest : Text) :
    ∃ w, Step (before ++ words ++ (mid ++ tag'.source ++ rest)) w ∧
      Step (before ++ tag.source ++ mid ++ words' ++ rest) w := by
  refine ⟨before ++ words ++ mid ++ words' ++ rest, .mk ⟨h', by simp⟩ render', ?_⟩
  have first : Step (before ++ tag.source ++ mid ++ words' ++ rest)
      (before ++ words ++ (mid ++ words' ++ rest)) := .mk ⟨h, by simp⟩ render
  simpa using first

/-- Steps from one text lead to texts from which one step each leads to the same text again. -/
theorem Step.diamond (h : Step t u) (h' : Step t v) : u = v ∨ ∃ w, Step u w ∧ Step v w := by
  cases h with
  | @mk tag before rest words t occurs render =>
    cases h' with
    | @mk tag' before' rest' words' t occurs' render' =>
      rcases occurs.cases occurs' with ⟨rfl, rfl, rfl⟩ | ⟨mid, rfl, rfl⟩ | ⟨mid, rfl, rfl⟩
      · rw [render] at render'
        cases render'
        exact .inl rfl
      · exact .inr (step_commute occurs.complete occurs'.complete render render' before mid rest')
      · obtain ⟨w, hv, hu⟩ :=
          step_commute occurs'.complete occurs.complete render' render before' mid rest
        exact .inr ⟨w, hu, hv⟩

theorem Fails.behind (h : Fails t) (before : Text) : Fails (before ++ t) := by
  obtain ⟨tag, front, rest, gap, ⟨complete, rfl⟩, render⟩ := h
  exact ⟨tag, before ++ front, rest, gap, ⟨complete, by simp⟩, render⟩

/-- Steps do not remove a tag that has no words. -/
theorem Fails.step (h : Fails t) (step : Step t u) : Fails u := by
  obtain ⟨tag, before, rest, gap, occurs, render⟩ := h
  cases step with
  | @mk tag' before' rest' words t occurs' render' =>
    refine ⟨tag, ?_⟩
    rcases occurs.cases occurs' with ⟨rfl, rfl, rfl⟩ | ⟨mid, rfl, rfl⟩ | ⟨mid, rfl, rfl⟩
    · rw [render] at render'
      cases render'
    · exact ⟨before, mid ++ words ++ rest', gap, ⟨occurs.complete, by simp⟩, render⟩
    · exact ⟨before' ++ words ++ mid, rest, gap, ⟨occurs.complete, by simp⟩, render⟩

theorem Fails.steps (h : Fails t) (steps : Steps t u) : Fails u := by
  induction steps with
  | refl => exact h
  | tail _ step ih => exact ih.step step

theorem TagFree.not_step (h : TagFree t) : ¬ Step t u := by
  rintro ⟨occurs, -⟩
  exact h _ _ _ occurs

theorem TagFree.not_fails (h : TagFree t) : ¬ Fails t := by
  rintro ⟨tag, before, rest, gap, occurs, -⟩
  exact h _ _ _ occurs

/-- Where no step can be made, steps lead nowhere. -/
theorem Steps.eq_of_stuck (steps : Steps t u) (stuck : ∀ v, ¬ Step t v) : u = t := by
  rcases steps.cases_head with rfl | ⟨v, step, -⟩
  · rfl
  · exact absurd step (stuck v)

/-- Texts that are reached from one text lead to one text again. -/
theorem Steps.confluent (h : Steps t u) (h' : Steps t v) : ∃ w, Steps u w ∧ Steps v w := by
  refine Relation.church_rosser (fun a b c hb hc => ?_) h h'
  rcases hb.diamond hc with rfl | ⟨w, hbw, hcw⟩
  · exact ⟨b, .refl, .refl⟩
  · exact ⟨w, .single hbw, .single hcw⟩

/-- No sequence of steps goes on without end. -/
theorem steps_end (f : Nat → Text) : ¬ ∀ i, Step (f i) (f (i + 1)) := by
  intro steps
  -- There are no more steps than opening braces at the beginning.
  have fewer : ∀ i, (f i).count '{' + i ≤ (f 0).count '{' := by
    intro i
    induction i with
    | zero => exact Nat.le_refl _
    | succ i ih =>
      have := (steps i).count_lt
      omega
  have := fewer ((f 0).count '{' + 1)
  omega

/-! ## Passes -/

/-- Steps can be made behind any text. -/
theorem Steps.behind (h : Steps t u) (before : Text) : Steps (before ++ t) (before ++ u) := by
  refine ReflTransGen.lift (before ++ ·) (fun a b step => ?_) _ _ h
  cases step with
  | @mk tag front rest words a occurs render =>
    obtain ⟨complete, rfl⟩ := occurs
    have step : Step (before ++ (front ++ tag.source ++ rest)) (before ++ front ++ words ++ rest) :=
      .mk ⟨complete, by simp⟩ render
    simpa using step

theorem resolve_ok_iff {tag : BraceTag} {offset : Nat} {words : Text} :
    (resolve tag offset).answer = .ok words ↔ tag.render = .ok words := by
  unfold resolve
  split
  · rename_i h
    simp [h]
  · rename_i h
    simp [h]

theorem resolve_error_iff {tag : BraceTag} {offset : Nat} {failure : Failure} :
    (resolve tag offset).answer = .error failure ↔
      ∃ gap, tag.render = .error gap ∧
        failure = .unrendered (.unusable gap) tag.source offset := by
  unfold resolve
  split
  · rename_i h
    simp [h]
  · rename_i h
    simp [h, @eq_comm _ failure]

/-- A pass makes steps, up to its end or to a tag that has no words. -/
theorem pass_steps (offset : Nat) (t : Text) :
    (∀ u, (pass offset t).answer = .ok u → Steps t u) ∧
    ∀ failure, (pass offset t).answer = .error failure → ∃ u, Steps t u ∧ Fails u := by
  fun_induction pass offset t with
  | case1 offset t none =>
    refine ⟨fun u h => ?_, nofun⟩
    cases h
    exact .refl
  | case2 offset t before tag rest found _ start ih =>
    obtain ⟨complete, e⟩ := occurs_of_nextTag found
    obtain ⟨ihOk, ihError⟩ := ih
    -- The tag that is found is replaced first, and the pass goes on behind it.
    have first {words v : Text} (render : tag.render = .ok words) (steps : Steps rest v) :
        Steps t (before ++ words ++ v) :=
      .head (.mk ⟨complete, e⟩ render) (steps.behind (before ++ words))
    constructor
    · intro u h
      obtain ⟨words, hwords, h⟩ := Logged.answer_bind_ok.1 h
      obtain ⟨v, hv, rfl⟩ := Logged.answer_map_ok.1 h
      exact first (resolve_ok_iff.1 hwords) (ihOk v hv)
    · intro failure h
      rcases Logged.answer_bind_error.1 h with h | ⟨words, hwords, h⟩
      · obtain ⟨gap, render, -⟩ := resolve_error_iff.1 h
        exact ⟨t, .refl, tag, before, rest, gap, ⟨complete, e⟩, render⟩
      · obtain ⟨v, steps, fails⟩ := ihError failure (Logged.answer_map_error.1 h)
        exact ⟨_, first (resolve_ok_iff.1 hwords) steps, fails.behind _⟩

/-- All passes together make steps, up to a text without tags or with a tag that has no words. -/
theorem resolveAll_steps (t : Text) :
    (∀ u, (resolveAll t).answer = .ok u → Steps t u ∧ TagFree u) ∧
    ∀ failure, (resolveAll t).answer = .error failure → ∃ u, Steps t u ∧ Fails u := by
  fun_induction resolveAll t with
  | case1 t none =>
    refine ⟨fun u h => ?_, nofun⟩
    cases h
    exact ⟨.refl, nextTag_eq_none_iff.1 none⟩
  | case2 t _ journal failure run =>
    have stopped := (pass_steps 0 t).2
    rw [run] at stopped
    exact ⟨nofun, stopped⟩
  | case3 t _ journal u run _ ih =>
    have passed : Steps t u := (pass_steps 0 t).1 u (by rw [run])
    obtain ⟨ihOk, ihError⟩ := ih
    constructor
    · intro v h
      obtain ⟨steps, free⟩ := ihOk v h
      exact ⟨passed.trans steps, free⟩
    · intro failure h
      obtain ⟨v, steps, fails⟩ := ihError failure h
      exact ⟨v, passed.trans steps, fails⟩

/-! ## Any order -/

/-- Tags may be resolved in any order. If a record is expanded, its text has no tag left, and every
text that steps lead to on the way leads on to it; steps that stop have reached it. If expanding
fails, steps never lead to a text without tags, and where they stop a tag has no words. Either way
they stop. -/
theorem expand_in_any_order (t : Text) :
    (∀ out, (expand t).answer = .ok out → TagFree out ∧
      ∀ u, Steps (normalise t) u → Steps u out ∧ ((∀ v, ¬ Step u v) → u = out)) ∧
    (∀ failure, (expand t).answer = .error failure →
      ∀ u, Steps (normalise t) u → ¬ TagFree u ∧ ((∀ v, ¬ Step u v) → Fails u)) ∧
    ∀ f : Nat → Text, f 0 = normalise t → ¬ ∀ i, Step (f i) (f (i + 1)) := by
  refine ⟨fun out h => ?_, fun failure h u steps => ?_, fun f _ => steps_end f⟩
  · obtain ⟨reached, free⟩ := (resolveAll_steps (normalise t)).1 out h
    refine ⟨free, fun u steps => ?_⟩
    obtain ⟨w, hu, hout⟩ := steps.confluent reached
    obtain rfl := hout.eq_of_stuck fun _ => free.not_step
    exact ⟨hu, fun stuck => (hu.eq_of_stuck stuck).symm⟩
  · obtain ⟨w, reached, fails⟩ := (resolveAll_steps (normalise t)).2 failure h
    obtain ⟨x, hu, hw⟩ := steps.confluent reached
    have blocked := fails.steps hw
    constructor
    · intro free
      obtain rfl := hu.eq_of_stuck fun _ => free.not_step
      exact free.not_fails blocked
    · intro stuck
      obtain rfl := hu.eq_of_stuck stuck
      exact blocked

/-- The second of two tags may be replaced first, and an unknown attack is where steps stop. -/
theorem second_tag_first :
    (TagFree "On hit: +5".toList ∧ Steps "{@h}+5".toList "On hit: +5".toList) ∧
    ¬ TagFree "{@atk zz}".toList ∧ Fails "{@atk zz}".toList := by
  constructor
  · have out : (expand "{@h}{@hit 5}".toList).answer = .ok "On hit: +5".toList := by
      decide +kernel
    have start : normalise "{@h}{@hit 5}".toList = "{@h}{@hit 5}".toList := by decide +kernel
    have complete : Complete ⟨"hit".toList, " 5".toList⟩ := by decide
    have second : Step "{@h}{@hit 5}".toList ("{@h}".toList ++ "+5".toList ++ []) :=
      .mk ⟨complete, by decide⟩ (by decide)
    obtain ⟨free, reached⟩ := (expand_in_any_order _).1 _ out
    exact ⟨free, (reached _ (by rw [start]; exact .single second)).1⟩
  · have failure : (expand "{@atk zz}".toList).answer =
        .error (.unrendered (.unusable .unknownAttackCode) "{@atk zz}".toList 0) := by
      decide +kernel
    have start : normalise "{@atk zz}".toList = "{@atk zz}".toList := by decide +kernel
    have occurs : Occurs ⟨"atk".toList, " zz".toList⟩ [] [] "{@atk zz}".toList :=
      ⟨by decide, by decide⟩
    have gap : BraceTag.render ⟨"atk".toList, " zz".toList⟩ = .error .unknownAttackCode := by decide
    obtain ⟨left, stopped⟩ := (expand_in_any_order _).2.1 _ failure _ .refl
    rw [start] at left stopped
    refine ⟨left, stopped fun v step => ?_⟩
    cases step with
    | mk occurs' render =>
      rcases occurs.cases occurs' with ⟨rfl, -⟩ | ⟨mid, -, e⟩ | ⟨mid, e, -⟩
      · exact absurd (gap.symm.trans render) nofun
      · exact absurd e (by simp [BraceTag.source])
      · exact absurd e (by simp [BraceTag.source])

end RulesText.Brace
