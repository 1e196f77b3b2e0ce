/-
Rolls that differ in their atoms only. A translation relates atoms that the grammar cannot tell
apart, and the trees made of them; what the grammar says of a word it says of a translated word too,
with translated trees (`Translation.damage`).
-/
import Mathlib.Data.List.Forall2
import RulesText.Proofs.Roll.Grammar

namespace RulesText.Roll

/-- Equal lexemes, or two atoms that `R` relates. -/
inductive Lexeme.Like (R : Text → Text → Prop) : Lexeme → Lexeme → Prop
  | atom {a b : Text} : R a b → Like R (.atom a) (.atom b)
  | same {l : Lexeme} : (∀ a, l ≠ .atom a) → Like R l l

/-- Related atoms are the same function, if any, and the same die size, if any; the relation of
trees goes from atoms up to all trees. -/
structure Translation (R : Text → Text → Prop) (S : Tree → Tree → Prop) : Prop where
  function {a b : Text} : R a b → Builtin.ofName? a = Builtin.ofName? b
  die {a b : Text} : R a b → (Tree.isDie a || Tree.isDie b) = true → a = b
  leaf {a b : Text} : R a b → S (Tree.leaf a) (Tree.leaf b)
  binary (op : Operator) {l l' r r' : Tree} : S l l' → S r r' → S (.binary op l r) (.binary op l' r')
  call (f : Builtin) {ts us : List Tree} : List.Forall₂ S ts us → S (.call f ts) (.call f us)
  dice (die : Text) {t u : Tree} : S t u → S (.dice t die) (.dice u die)

variable {R : Text → Text → Prop} {S : Tree → Tree → Prop}

theorem Translation.symm (h : Translation R S) : Translation (flip R) (flip S) where
  function hab := (h.function hab).symm
  die hab die := (h.die hab (Bool.or_comm .. ▸ die)).symm
  leaf hab := h.leaf hab
  binary op _ _ _ _ hl hr := h.binary op hl hr
  call f _ _ hts := h.call f hts.flip
  dice die _ _ ht := h.dice die ht

/-! ## Words -/

section Words

open List (Forall₂)

variable {u v w : List Lexeme}

theorem Lexeme.Like.flip {l m : Lexeme} (h : Like R l m) : Like (flip R) m l := by
  cases h with
  | atom hab => exact .atom hab
  | same ne => exact .same ne

theorem Lexeme.Like.of_atom {a : Text} {l : Lexeme} (h : Like R (.atom a) l) :
    ∃ b, l = .atom b ∧ R a b := by
  cases h with
  | atom hab => exact ⟨_, rfl, hab⟩
  | same ne => exact absurd rfl (ne a)

theorem like_append (h : Forall₂ (Lexeme.Like R) (v ++ w) u) :
    ∃ v' w', u = v' ++ w' ∧ Forall₂ (Lexeme.Like R) v v' ∧ Forall₂ (Lexeme.Like R) w w' := by
  induction v generalizing u with
  | nil => exact ⟨[], u, rfl, .nil, h⟩
  | cons l v ih =>
    cases h with
    | cons hl h =>
      obtain ⟨v', w', rfl, hv, hw⟩ := ih h
      exact ⟨_ :: v', w', rfl, .cons hl hv, hw⟩

theorem like_singleton {l : Lexeme} (h : Forall₂ (Lexeme.Like R) [l] u) :
    ∃ m, u = [m] ∧ Lexeme.Like R l m := by
  cases h with
  | cons hl h =>
    cases h
    exact ⟨_, rfl, hl⟩

/-- A lexeme that is no atom stands at the same place in both words. -/
theorem like_between {l : Lexeme} (ne : ∀ a, l ≠ .atom a)
    (h : Forall₂ (Lexeme.Like R) (v ++ l :: w) u) :
    ∃ v' w', u = v' ++ l :: w' ∧ Forall₂ (Lexeme.Like R) v v' ∧ Forall₂ (Lexeme.Like R) w w' := by
  obtain ⟨v', w', rfl, hv, hw⟩ := like_append h
  cases hw with
  | cons hl hw =>
    cases hl with
    | atom _ => exact absurd rfl (ne _)
    | same _ => exact ⟨v', _, rfl, hv, hw⟩

theorem like_before {l : Lexeme} (ne : ∀ a, l ≠ .atom a)
    (h : Forall₂ (Lexeme.Like R) (v ++ [l]) u) :
    ∃ v', u = v' ++ [l] ∧ Forall₂ (Lexeme.Like R) v v' := by
  obtain ⟨v', w', rfl, hv, hw⟩ := like_between ne h
  cases hw
  exact ⟨v', rfl, hv⟩

end Words

/-! ## Rules -/

namespace Grammar

open List (Forall₂)

mutual

theorem Group.translated (h : Translation R S) {w v : List Lexeme} {t : Tree} :
    Group w t → Forall₂ (Lexeme.Like R) w v → ∃ u, Group v u ∧ S t u
  | .parentheses sum, .cons (.same _) words => by
    obtain ⟨v, rfl, inside⟩ := like_before (by simp) words
    obtain ⟨u, hu, htu⟩ := sum.translated h inside
    exact ⟨u, .parentheses hu, htu⟩
  | .call arguments arity, .cons name (.cons (.same _) words) => by
    obtain ⟨a, rfl, hf⟩ := name.of_atom
    obtain ⟨v, rfl, inside⟩ := like_before (by simp) words
    obtain ⟨us, hus, htus⟩ := arguments.translated h inside
    obtain rfl := Builtin.name_of_ofName? ((h.function hf).symm.trans (Builtin.ofName?_name _))
    exact ⟨_, .call hus (htus.length_eq ▸ arity), h.call _ htus⟩

theorem Factor.translated (h : Translation R S) {w v : List Lexeme} {t : Tree} :
    Factor w t → Forall₂ (Lexeme.Like R) w v → ∃ u, Factor v u ∧ S t u
  | .leaf hnone, .cons name .nil => by
    obtain ⟨a, rfl, ha⟩ := name.of_atom
    exact ⟨_, .leaf ((h.function ha).symm.trans hnone), h.leaf ha⟩
  | .group group, words => by
    obtain ⟨u, hu, htu⟩ := group.translated h words
    exact ⟨u, .group hu, htu⟩
  | .dice group size, words => by
    obtain ⟨v, last, rfl, counted, behind⟩ := like_append words
    obtain ⟨u, hu, htu⟩ := group.translated h counted
    obtain ⟨l, rfl, hl⟩ := like_singleton behind
    obtain ⟨a, rfl, ha⟩ := hl.of_atom
    obtain rfl := h.die ha (by rw [size, Bool.true_or])
    exact ⟨_, .dice hu size, h.dice _ htu⟩

theorem Product.translated (h : Translation R S) {w v : List Lexeme} {t : Tree} :
    Product w t → Forall₂ (Lexeme.Like R) w v → ∃ u, Product v u ∧ S t u
  | .factor factor, words => by
    obtain ⟨u, hu, htu⟩ := factor.translated h words
    exact ⟨u, .factor hu, htu⟩
  | .more product hop factor, words => by
    obtain ⟨v, w, rfl, hv, hw⟩ := like_between (by simp) words
    obtain ⟨l, hl, htl⟩ := product.translated h hv
    obtain ⟨r, hr, htr⟩ := factor.translated h hw
    exact ⟨_, .more hl hop hr, h.binary _ htl htr⟩

theorem Sum.translated (h : Translation R S) {w v : List Lexeme} {t : Tree} :
    Sum w t → Forall₂ (Lexeme.Like R) w v → ∃ u, Sum v u ∧ S t u
  | .product product, words => by
    obtain ⟨u, hu, htu⟩ := product.translated h words
    exact ⟨u, .product hu, htu⟩
  | .more sum hop product, words => by
    obtain ⟨v, w, rfl, hv, hw⟩ := like_between (by simp) words
    obtain ⟨l, hl, htl⟩ := sum.translated h hv
    obtain ⟨r, hr, htr⟩ := product.translated h hw
    exact ⟨_, .more hl hop hr, h.binary _ htl htr⟩

theorem Arguments.translated (h : Translation R S) {w v : List Lexeme} {ts : List Tree} :
    Arguments w ts → Forall₂ (Lexeme.Like R) w v → ∃ us, Arguments v us ∧ Forall₂ S ts us
  | .one sum, words => by
    obtain ⟨u, hu, htu⟩ := sum.translated h words
    exact ⟨[u], .one hu, .cons htu .nil⟩
  | .more arguments sum, words => by
    obtain ⟨v, w, rfl, hv, hw⟩ := like_between (by simp) words
    obtain ⟨us, hus, htus⟩ := arguments.translated h hv
    obtain ⟨u, hu, htu⟩ := sum.translated h hw
    exact ⟨us ++ [u], .more hus hu, List.rel_append htus (.cons htu .nil)⟩

end

/-- A damage type is the same in both terms. -/
theorem Entry.translated (h : Translation R S) {w v : List Lexeme} {p : Tree × Option Text}
    (entry : Entry w p) (words : Forall₂ (Lexeme.Like R) w v) :
    ∃ u, Entry v (u, p.2) ∧ S p.1 u := by
  cases entry with
  | bare sum =>
    obtain ⟨u, hu, htu⟩ := sum.translated h words
    exact ⟨u, .bare hu, htu⟩
  | typed type sum =>
    obtain ⟨v, rfl, before⟩ := like_before (by simp) words
    obtain ⟨u, hu, htu⟩ := sum.translated h before
    exact ⟨u, .typed type hu, htu⟩

end Grammar

/-- A translated word is a roll of as many terms, with translated trees and the same damage types. -/
theorem Translation.damage (h : Translation R S) {w v : List Lexeme}
    {ps : List (Tree × Option Text)} (damage : Grammar.Damage w ps)
    (words : List.Forall₂ (Lexeme.Like R) w v) :
    ∃ qs, Grammar.Damage v qs ∧ List.Forall₂ (fun p q => S p.1 q.1 ∧ p.2 = q.2) ps qs := by
  induction damage generalizing v with
  | one entry =>
    obtain ⟨u, hu, htu⟩ := entry.translated h words
    exact ⟨_, .one hu, .cons ⟨htu, rfl⟩ .nil⟩
  | more _ entry ih =>
    obtain ⟨v, w, rfl, hv, hw⟩ := like_between (by simp) words
    obtain ⟨qs, hqs, hpqs⟩ := ih hv
    obtain ⟨u, hu, htu⟩ := entry.translated h hw
    exact ⟨_, .more hqs hu, List.rel_append hpqs (.cons ⟨htu, rfl⟩ .nil)⟩

end RulesText.Roll
