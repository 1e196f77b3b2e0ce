/-
What a roll means, told from its lexemes. Whether a roll is read, and to what text it is worked out,
depends on its lexemes alone and not on where they stand (`parse_ok_iff`, `evaluate_ok_iff_damage`);
so both carry over to a roll whose lexemes are a translation (`parse_ok_of_alike`,
`evaluate_ok_of_alike`).
-/
import RulesText.Proofs.Roll.Lexemes
import RulesText.Proofs.Roll.Parse
import RulesText.Proofs.Roll.Translation
import RulesText.Proofs.Roll.Values

namespace RulesText.Roll

open Grammar List

/-- A term with the given expression and damage type is written out as `text`. -/
def Written (rank : Rank) (p : Tree × Option Text) (text : Text) : Prop :=
  ∃ v, p.1.HasValue rank v ∧ v.isTruth = false ∧ text = v.labelled p.2

theorem renderTerms_ok_iff {rank : Rank} {terms : List Term} {texts : List Text} :
    (renderTerms rank terms).answer = .ok texts ↔
      Forall₂ (Written rank) (terms.map Term.content) texts := by
  induction terms generalizing texts with
  | nil =>
    rw [map_nil, forall₂_nil_left_iff]
    exact ⟨fun h => (Except.ok.inj h).symm, fun h => congrArg Except.ok h.symm⟩
  | cons term terms ih =>
    rw [map_cons, forall₂_cons_left_iff, renderTerms, Logged.answer_bind_ok]
    constructor
    · rintro ⟨text, h, hs⟩
      obtain ⟨rest, hrest, rfl⟩ := Logged.answer_map_ok.1 hs
      exact ⟨text, rest, Term.render_ok_iff.1 h, ih.1 hrest, rfl⟩
    · rintro ⟨text, rest, h, hrest, rfl⟩
      exact ⟨text, Term.render_ok_iff.2 h, Logged.answer_map_ok.2 ⟨rest, ih.2 hrest, rfl⟩⟩

/-- The terms of a roll are what the grammar says of its lexemes. -/
theorem parse_content_iff {roll : Text} {ps : List (Tree × Option Text)} :
    (∃ terms, parse roll = .ok terms ∧ terms.map Term.content = ps) ↔
      ∃ w, Token.lexemes roll = some w ∧ Damage w ps := by
  rw [parse_iff_damage]
  constructor
  · rintro ⟨tokens, scan, damage⟩
    exact ⟨_, Token.lexemes_eq_some_iff.2 ⟨tokens, scan, rfl⟩, damage⟩
  · rintro ⟨w, lexemes, damage⟩
    obtain ⟨tokens, scan, rfl⟩ := Token.lexemes_eq_some_iff.1 lexemes
    exact ⟨tokens, scan, damage⟩

/-- A roll is read exactly if its lexemes are a word of the grammar. -/
theorem parse_ok_iff {roll : Text} :
    (∃ terms, parse roll = .ok terms) ↔ ∃ w ps, Token.lexemes roll = some w ∧ Damage w ps := by
  constructor
  · rintro ⟨terms, h⟩
    obtain ⟨w, lexemes, damage⟩ := parse_content_iff.1 ⟨terms, h, rfl⟩
    exact ⟨w, _, lexemes, damage⟩
  · rintro ⟨w, ps, lexemes, damage⟩
    obtain ⟨terms, h, -⟩ := parse_content_iff.2 ⟨w, lexemes, damage⟩
    exact ⟨terms, h⟩

/-- A roll is worked out to the texts of its terms, with `and` between them. -/
theorem evaluate_ok_iff_damage {rank : Rank} {roll text : Text} :
    (evaluate rank roll).answer = .ok text ↔
      ∃ w ps texts, Token.lexemes roll = some w ∧ Damage w ps ∧ Forall₂ (Written rank) ps texts ∧
        " and ".toList.intercalate texts = text := by
  rw [evaluate, Logged.answer_bind_ok]
  constructor
  · rintro ⟨terms, read, h⟩
    obtain ⟨texts, written, rfl⟩ := Logged.answer_map_ok.1 h
    obtain ⟨w, lexemes, damage⟩ := parse_content_iff.1 ⟨terms, read, rfl⟩
    exact ⟨w, _, texts, lexemes, damage, renderTerms_ok_iff.1 written, rfl⟩
  · rintro ⟨w, ps, texts, lexemes, damage, written, rfl⟩
    obtain ⟨terms, read, rfl⟩ := parse_content_iff.2 ⟨w, lexemes, damage⟩
    exact ⟨terms, read, Logged.answer_map_ok.2 ⟨texts, renderTerms_ok_iff.2 written, rfl⟩⟩

/-! ## Translated rolls -/

/-- Rolls whose lexemes differ in related atoms only; or neither of them has lexemes. -/
def Alike (R : Text → Text → Prop) (roll roll' : Text) : Prop :=
  Option.Rel (Forall₂ (Lexeme.Like R)) (Token.lexemes roll) (Token.lexemes roll')

variable {R : Text → Text → Prop} {roll roll' : Text}

theorem Alike.flip (h : Alike R roll roll') : Alike (flip R) roll' roll := by
  unfold Alike at h ⊢
  generalize Token.lexemes roll = w, Token.lexemes roll' = w' at h ⊢
  cases h with
  | none => exact .none
  | some words => exact .some (words.flip.imp fun _ _ => .flip)

theorem Alike.some (h : Alike R roll roll') {w : List Lexeme} (hw : Token.lexemes roll = some w) :
    ∃ w', Token.lexemes roll' = some w' ∧ Forall₂ (Lexeme.Like R) w w' := by
  unfold Alike at h
  rw [hw] at h
  cases h' : Token.lexemes roll' with
  | none => rw [h'] at h; cases h
  | some w' =>
    rw [h'] at h
    cases h with
    | some words => exact ⟨w', rfl, words⟩

theorem parse_ok_of_alike {S : Tree → Tree → Prop} (h : Translation R S) (words : Alike R roll roll') :
    (∃ terms, parse roll = .ok terms) → ∃ terms, parse roll' = .ok terms := by
  rw [parse_ok_iff, parse_ok_iff]
  rintro ⟨w, ps, hw, damage⟩
  obtain ⟨w', hw', like⟩ := words.some hw
  obtain ⟨qs, damage', -⟩ := h.damage damage like
  exact ⟨w', qs, hw', damage'⟩

/-- Terms with the same damage types are written out alike if their expressions have the same
values. -/
theorem written_mono {m n : Rank} {S : Tree → Tree → Prop}
    (values : ∀ t u, S t u → ∀ v, t.HasValue m v → u.HasValue n v)
    {ps qs : List (Tree × Option Text)} {texts : List Text}
    (same : Forall₂ (fun p q => S p.1 q.1 ∧ p.2 = q.2) ps qs) (h : Forall₂ (Written m) ps texts) :
    Forall₂ (Written n) qs texts := by
  induction same generalizing texts with
  | nil =>
    cases h
    exact .nil
  | cons same _ ih =>
    cases h with
    | cons written h =>
      obtain ⟨v, hv, truth, rfl⟩ := written
      exact .cons ⟨v, values _ _ same.1 v hv, truth, by rw [same.2]⟩ (ih h)

theorem evaluate_ok_of_alike {m n : Rank} {S : Tree → Tree → Prop} (h : Translation R S)
    (values : ∀ t u, S t u → ∀ v, t.HasValue m v → u.HasValue n v) (words : Alike R roll roll')
    {text : Text} :
    (evaluate m roll).answer = .ok text → (evaluate n roll').answer = .ok text := by
  rw [evaluate_ok_iff_damage, evaluate_ok_iff_damage]
  rintro ⟨w, ps, texts, hw, damage, written, rfl⟩
  obtain ⟨w', hw', like⟩ := words.some hw
  obtain ⟨qs, damage', same⟩ := h.damage damage like
  exact ⟨w', qs, texts, hw', damage', written_mono values same written, rfl⟩

end RulesText.Roll
