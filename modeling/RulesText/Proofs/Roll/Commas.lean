/-
Where a roll comes apart. A comma inside a term stands in parentheses that the term opens and
closes, so a comma behind a whole roll ends a term of whatever roll it stands in (`Whole.split`);
and the tokens of a roll leave no choice of its terms (`Whole.unique`).
-/
import RulesText.Proofs.Roll.Parse

namespace RulesText.Roll

namespace Grammar

/-! ## Open parentheses -/

/-- How many parentheses are open behind some lexemes if `depth` are open in front of them; `none`
if a comma or a closing parenthesis stands where nothing is open. -/
def openBehind (depth : Nat) : List Lexeme → Option Nat
  | [] => some depth
  | .opening :: w => openBehind (depth + 1) w
  | .closing :: w =>
    match depth with
    | 0 => none
    | depth + 1 => openBehind depth w
  | .comma :: w => if depth = 0 then none else openBehind depth w
  | _ :: w => openBehind depth w

@[simp] theorem openBehind_nil (depth : Nat) : openBehind depth [] = some depth := rfl

@[simp] theorem openBehind_opening (depth : Nat) (w : List Lexeme) :
    openBehind depth (.opening :: w) = openBehind (depth + 1) w := rfl

@[simp] theorem openBehind_closing (depth : Nat) (w : List Lexeme) :
    openBehind (depth + 1) (.closing :: w) = openBehind depth w := rfl

@[simp] theorem openBehind_comma (depth : Nat) (w : List Lexeme) :
    openBehind (depth + 1) (.comma :: w) = openBehind (depth + 1) w := rfl

@[simp] theorem openBehind_separator (w : List Lexeme) : openBehind 0 (.comma :: w) = none := rfl

@[simp] theorem openBehind_atom (depth : Nat) (a : Text) (w : List Lexeme) :
    openBehind depth (.atom a :: w) = openBehind depth w := rfl

@[simp] theorem openBehind_operator (depth : Nat) (op : Operator) (w : List Lexeme) :
    openBehind depth (.operator op :: w) = openBehind depth w := rfl

@[simp] theorem openBehind_damageType (depth : Nat) (type : Text) (w : List Lexeme) :
    openBehind depth (.damageType type :: w) = openBehind depth w := rfl

@[simp] theorem openBehind_append (depth : Nat) (v w : List Lexeme) :
    openBehind depth (v ++ w) = (openBehind depth v).bind fun depth => openBehind depth w := by
  induction v generalizing depth with
  | nil => rfl
  | cons l v ih =>
    cases l with
    | opening => exact ih (depth + 1)
    | closing =>
      cases depth with
      | zero => rfl
      | succ depth => exact ih depth
    | comma =>
      cases depth with
      | zero => rfl
      | succ depth => exact ih (depth + 1)
    | _ => exact ih depth

mutual

theorem Group.level {w : List Lexeme} {t : Tree} :
    Group w t → ∀ depth, openBehind depth w = some depth
  | .parentheses sum => fun depth => by simp [sum.level]
  | .call arguments _ => fun depth => by simp [arguments.level]

theorem Factor.level {w : List Lexeme} {t : Tree} :
    Factor w t → ∀ depth, openBehind depth w = some depth
  | .leaf _ => fun depth => rfl
  | .group group => group.level
  | .dice group _ => fun depth => by simp [group.level]

theorem Product.level {w : List Lexeme} {t : Tree} :
    Product w t → ∀ depth, openBehind depth w = some depth
  | .factor factor => factor.level
  | .more product _ factor => fun depth => by simp [product.level, factor.level]

theorem Sum.level {w : List Lexeme} {t : Tree} :
    Sum w t → ∀ depth, openBehind depth w = some depth
  | .product product => product.level
  | .more sum _ product => fun depth => by simp [sum.level, product.level]

/-- Commas between arguments stand in the parentheses of the call. -/
theorem Arguments.level {w : List Lexeme} {ts : List Tree} :
    Arguments w ts → ∀ depth, openBehind (depth + 1) w = some (depth + 1)
  | .one sum => fun depth => sum.level (depth + 1)
  | .more arguments sum => fun depth => by simp [arguments.level, sum.level]

end

theorem Entry.level {w : List Lexeme} {p : Tree × Option Text} (h : Entry w p) (depth : Nat) :
    openBehind depth w = some depth := by
  cases h with
  | bare sum => exact sum.level depth
  | typed type sum => simp [sum.level]

/-- The grammar takes lexemes for one roll only. -/
theorem Damage.unique {w : List Lexeme} {ps qs : List (Tree × Option Text)} (h : Damage w ps)
    (h' : Damage w qs) : ps = qs := by
  have lexemes : (w.map fun l => (⟨l, 0⟩ : Token)).map (·.lexeme) = w := by
    simp [Function.comp_def]
  obtain ⟨s, run, ended⟩ := @Reading.damage_run [] _ _ h _ lexemes
  obtain ⟨s', run', ended'⟩ := @Reading.damage_run [] _ _ h' _ lexemes
  rw [run] at run'
  cases run'
  obtain ⟨terms, finished, rfl⟩ := @Reading.finish_ended [] s _ ended
  obtain ⟨terms', finished', rfl⟩ := @Reading.finish_ended [] s _ ended'
  rw [finished] at finished'
  cases finished'
  rfl

end Grammar

open Grammar

namespace Reading

variable {source : Text} {ts us done : List Token} {c : Token} {term : Term}
  {terms newest : List Term}

/-! ## Single terms -/

/-- Behind the comma that ends a term nothing is counted any more. -/
theorem Closed.openBehind (h : Closed source done terms) (some_term : done ≠ []) :
    openBehind 0 (done.map (·.lexeme)) = none := by
  induction h with
  | nil => exact absurd rfl some_term
  | @cons done ts t _ _ _ tokens ht ih =>
    by_cases first : done = []
    · simp [first, tokens.entry.level, ht]
    · simp [ih first]

theorem Closed.eq_nil (h : Closed source done terms) (none : done = []) : terms = [] := by
  cases h with
  | nil => rfl
  | cons _ _ _ => simp at none

/-- A roll in which every comma stands in parentheses has one term. -/
theorem Whole.of_level (h : Whole source ts newest)
    (level : Grammar.openBehind 0 (ts.map (·.lexeme)) = some 0) :
    ∃ term, newest = [term] ∧ TermTokens source ts term := by
  obtain ⟨closed, tokens⟩ := h
  rename_i done last terms term
  by_cases first : done = []
  · obtain rfl := closed.eq_nil first
    subst first
    exact ⟨term, rfl, tokens⟩
  · simp [closed.openBehind first] at level

/-- The tokens of a term leave no choice of the term. -/
theorem TermTokens.unique {term' : Term} (h : TermTokens source ts term)
    (h' : TermTokens source ts term') : term = term' := by
  have content : term.content = term'.content := by
    have := (Damage.one h.entry).unique (.one h'.entry)
    simpa using this
  cases h with
  | bare _ first last =>
    cases h' with
    | bare _ first' last' =>
      rw [first] at first'
      rw [last] at last'
      cases first'
      cases last'
      cases content
      rfl
    | typed _ _ _ _ => cases content
  | typed _ first last _ =>
    generalize e : _ ++ [_] = all at h'
    cases h' with
    | bare _ _ _ => cases content
    | typed _ first' last' _ =>
      obtain ⟨rfl, -⟩ := List.append_inj' e rfl
      rw [first] at first'
      rw [last] at last'
      cases first'
      cases last'
      cases content
      rfl

/-! ## Several terms -/

/-- A roll goes on behind a comma with another term. -/
theorem Whole.more (h : Whole source ts newest) (hc : c.lexeme = .comma)
    (tokens : TermTokens source us term) : Whole source (ts ++ c :: us) (term :: newest) := by
  obtain ⟨closed, before⟩ := h
  have := Whole.mk (closed.cons before hc) tokens
  simpa using this

/-- A comma behind a term ends it, and what follows is a roll of the terms behind. -/
theorem Whole.split_term (h : Whole source (ts ++ c :: us) newest)
    (level : Grammar.openBehind 0 (ts.map (·.lexeme)) = some 0) (hc : c.lexeme = .comma) :
    ∃ first newer, newest = newer ++ [first] ∧ TermTokens source ts first ∧
      Whole source us newer := by
  generalize e : ts ++ c :: us = all at h
  obtain ⟨closed, tokens⟩ := h
  rename_i done last terms term
  induction closed generalizing last term us with
  | nil =>
    have := tokens.entry.level 0
    rw [← List.nil_append last, ← e] at this
    simp [level, hc] at this
  | @cons done ts' t terms term' closed tokens' ht ih =>
    have before := Whole.mk closed tokens'
    have here (front : ts = done ++ ts') (behind : us = last) :
        ∃ first newer, term :: term' :: terms = newer ++ [first] ∧ TermTokens source ts first ∧
          Whole source us newer := by
      obtain ⟨first, older, tokens'⟩ := (front ▸ before).of_level level
      exact ⟨first, [term], by rw [older]; rfl, tokens', behind ▸ .mk .nil tokens⟩
    rw [List.append_assoc, List.singleton_append, List.append_eq_append_iff] at e
    -- The comma is that behind the older terms, or it stands in front of it, or behind it.
    rcases e with ⟨between, e, e'⟩ | ⟨between, e, e'⟩
    · cases between with
      | nil =>
        cases e'
        exact here (by simpa using e.symm) rfl
      | cons d between =>
        cases e'
        obtain ⟨first, newer, hterms, front, behind⟩ := ih tokens' e.symm
        exact ⟨first, term :: newer, by rw [hterms]; rfl, front, behind.more ht tokens⟩
    · cases between with
      | nil =>
        cases e'
        exact here (by simpa using e) rfl
      | cons d between =>
        cases e'
        have none := (closed.cons tokens' ht).openBehind (by simp)
        rw [e, ← List.singleton_append, ← List.append_assoc, List.map_append, openBehind_append,
          none] at level
        cases level

/-- A comma behind a roll ends its last term, and what follows is a roll of the terms behind. -/
theorem Whole.split {w : List Lexeme} {ps : List (Tree × Option Text)} (damage : Damage w ps)
    (hw : ts.map (·.lexeme) = w) (hc : c.lexeme = .comma)
    (h : Whole source (ts ++ c :: us) newest) :
    ∃ older newer, newest = newer ++ older ∧ Whole source ts older ∧ Whole source us newer := by
  induction damage generalizing ts c us newest with
  | one entry =>
    obtain ⟨first, newer, rfl, front, behind⟩ := h.split_term (hw ▸ entry.level 0) hc
    exact ⟨[first], newer, rfl, .mk .nil front, behind⟩
  | more _ entry ih =>
    obtain ⟨left, rest, rfl, hleft, hrest⟩ := List.map_eq_append_iff.1 hw
    obtain ⟨d, right, rfl, hd, hright⟩ := List.map_eq_cons_iff.1 hrest
    rw [List.append_assoc, List.cons_append] at h
    obtain ⟨older, newer, rfl, front, behind⟩ := ih hleft hd h
    obtain ⟨term, newer, rfl, tokens, behind⟩ := behind.split_term (hright ▸ entry.level 0) hc
    exact ⟨term :: older, newer, by simp, front.more hd tokens, behind⟩

/-- The tokens of a roll leave no choice of its terms. -/
theorem Whole.unique {other : List Term} (h : Whole source ts newest)
    (h' : Whole source ts other) : newest = other := by
  obtain ⟨closed, tokens⟩ := h
  rename_i done last terms term
  induction closed generalizing last term other with
  | nil =>
    obtain ⟨term', rfl, tokens'⟩ := h'.of_level (tokens.entry.level 0)
    rw [tokens.unique tokens']
  | cons closed tokens₀ ht ih =>
    rw [List.append_assoc, List.singleton_append] at h'
    obtain ⟨older, newer, rfl, front, behind⟩ := h'.split (Whole.mk closed tokens₀).damage rfl ht
    obtain ⟨term', rfl, tokens'⟩ := behind.of_level (tokens.entry.level 0)
    rw [ih tokens₀ front, tokens.unique tokens']
    rfl

end Reading

end RulesText.Roll
