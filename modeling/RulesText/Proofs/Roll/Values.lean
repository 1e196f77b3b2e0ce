/-
The values of roll expressions as a relation beside the function that works them out: an expression
is worked out to a value exactly if rules lead from the values of its parts to that value
(`evaluate_ok_iff`). Faults and records are left aside.
-/
import RulesText.Roll.Evaluate

namespace RulesText.Roll

/-- An expression has a value at a rank. Of the branches of a choice only the one that is picked has
to have a value. -/
inductive Tree.HasValue (rank : Rank) : Tree → Value → Prop
  | number (x : Float) : HasValue rank (.number x) (.number x)
  | reference {text : Text} :
      isRankReference text = true → HasValue rank (.name text) (.number rank.number)
  | name {text : Text} : isRankReference text = false → HasValue rank (.name text) (.words text)
  | binary {op : Operator} {left right : Tree} {l r v : Value} :
      HasValue rank left l → HasValue rank right r → (op.apply l r).answer = .ok v →
      HasValue rank (.binary op left right) v
  | dice {count : Tree} {c : Value} (die : Text) :
      HasValue rank count c → c.isTruth = false →
      HasValue rank (.dice count die) (.words (c.text ++ die))
  | ceil {t : Tree} {x : Float} :
      HasValue rank t (.number x) → HasValue rank (.call .ceil [t]) (.number (Number.ceil x))
  | floor {t : Tree} {x : Float} :
      HasValue rank t (.number x) → HasValue rank (.call .floor [t]) (.number (Number.floor x))
  | gte {t u : Tree} {x y : Float} :
      HasValue rank t (.number x) → HasValue rank u (.number y) →
      HasValue rank (.call .gte [t, u]) (.truth (y ≤ x))
  | max {t u : Tree} {x y : Float} :
      HasValue rank t (.number x) → HasValue rank u (.number y) →
      HasValue rank (.call .max [t, u]) (.number (Number.larger x y))
  | yes {condition yes : Tree} {v : Value} (no : Tree) :
      HasValue rank condition (.truth true) → HasValue rank yes v →
      HasValue rank (.call .ternary [condition, yes, no]) v
  | no {condition no : Tree} {v : Value} (yes : Tree) :
      HasValue rank condition (.truth false) → HasValue rank no v →
      HasValue rank (.call .ternary [condition, yes, no]) v

open Logged

variable {rank : Rank} {v : Value}

/-- An argument that has to be a number. -/
theorem expectNumber_ok_iff {t : Tree} {next : Float → Logged Fault Value} :
    (do let x ← expectNumber t (← t.evaluate rank); next x).answer = .ok v ↔
      ∃ x, (t.evaluate rank).answer = .ok (.number x) ∧ (next x).answer = .ok v := by
  rw [answer_bind_ok]
  constructor
  · rintro ⟨a, ha, h⟩
    obtain ⟨x, hx, h⟩ := answer_bind_ok.1 h
    cases a <;> cases hx
    exact ⟨x, ha, h⟩
  · rintro ⟨x, ha, h⟩
    exact ⟨.number x, ha, answer_bind_ok.2 ⟨x, rfl, h⟩⟩

namespace Tree

/-- An expression that is worked out has the value that comes out. -/
theorem hasValue_of_evaluate {t : Tree} (h : (t.evaluate rank).answer = .ok v) :
    t.HasValue rank v := by
  induction t generalizing v with
  | number x =>
    cases h
    exact .number x
  | name text =>
    cases href : isRankReference text <;> simp only [evaluate, href] at h <;> cases h
    · exact .name href
    · exact .reference href
  | binary op left right ihl ihr =>
    obtain ⟨l, hl, h⟩ := answer_bind_ok.1 h
    obtain ⟨r, hr, h⟩ := answer_bind_ok.1 h
    exact .binary (ihl hl) (ihr hr) (answer_mapError_ok.1 h)
  | call f arguments ih =>
    unfold evaluate at h
    split at h
    case h_1 heq | h_2 heq | h_3 heq | h_4 heq => cases heq
    case h_5 t heq =>
      cases heq
      obtain ⟨x, hx, h⟩ := expectNumber_ok_iff.1 h
      cases h
      exact .ceil (ih t (by simp) hx)
    case h_6 t heq =>
      cases heq
      obtain ⟨x, hx, h⟩ := expectNumber_ok_iff.1 h
      cases h
      exact .floor (ih t (by simp) hx)
    case h_7 t u heq =>
      cases heq
      obtain ⟨x, hx, h⟩ := expectNumber_ok_iff.1 h
      obtain ⟨y, hy, h⟩ := expectNumber_ok_iff.1 h
      cases h
      exact .gte (ih t (by simp) hx) (ih u (by simp) hy)
    case h_8 t u heq =>
      cases heq
      obtain ⟨x, hx, h⟩ := expectNumber_ok_iff.1 h
      obtain ⟨y, hy, h⟩ := expectNumber_ok_iff.1 h
      cases h
      exact .max (ih t (by simp) hx) (ih u (by simp) hy)
    case h_9 condition yes no heq =>
      cases heq
      obtain ⟨c, hc, h⟩ := answer_bind_ok.1 h
      split at h
      · exact .yes no (ih condition (by simp) hc) (ih yes (by simp) h)
      · exact .no yes (ih condition (by simp) hc) (ih no (by simp) h)
      · cases h
    case h_10 => cases h
  | dice count die ih =>
    obtain ⟨c, hc, h⟩ := answer_bind_ok.1 h
    cases ht : c.isTruth <;> simp only [ht] at h <;> cases h
    exact .dice die (ih hc) ht

theorem HasValue.evaluate {t : Tree} (h : t.HasValue rank v) : (t.evaluate rank).answer = .ok v := by
  induction h with
  | number => rfl
  | reference href | name href =>
    simp only [Tree.evaluate, href]
    rfl
  | binary _ _ happly ihl ihr =>
    exact answer_bind_ok.2 ⟨_, ihl, answer_bind_ok.2 ⟨_, ihr, answer_mapError_ok.2 happly⟩⟩
  | dice die _ ht ih =>
    refine answer_bind_ok.2 ⟨_, ih, ?_⟩
    rw [ht]
    rfl
  | ceil _ ih | floor _ ih => exact expectNumber_ok_iff.2 ⟨_, ih, rfl⟩
  | gte _ _ iht ihu | max _ _ iht ihu =>
    exact expectNumber_ok_iff.2 ⟨_, iht, expectNumber_ok_iff.2 ⟨_, ihu, rfl⟩⟩
  | yes no _ _ ihc ihv => exact answer_bind_ok.2 ⟨_, ihc, ihv⟩
  | no yes _ _ ihc ihv => exact answer_bind_ok.2 ⟨_, ihc, ihv⟩

/-- Working out an expression follows the rules. -/
theorem evaluate_ok_iff {t : Tree} : (t.evaluate rank).answer = .ok v ↔ t.HasValue rank v :=
  ⟨hasValue_of_evaluate, HasValue.evaluate⟩

end Tree

/-! ## Terms -/

/-- The text of a value with the words for a damage type behind it. -/
def Value.labelled (v : Value) (damageType : Option Text) : Text :=
  let label := (damageType.map damageLabel).getD []
  if label.isEmpty then v.text else v.text ++ ' ' :: label

/-- A term is written out exactly if its expression has a value that is no comparison. -/
theorem Term.render_ok_iff {term : Term} {text : Text} :
    (term.render rank).answer = .ok text ↔
      ∃ v, term.expression.HasValue rank v ∧ v.isTruth = false ∧
        text = v.labelled term.damageType := by
  constructor
  · intro h
    obtain ⟨v, hv, h⟩ := answer_bind_ok.1 h
    cases ht : v.isTruth <;> simp only [ht] at h <;> cases h
    exact ⟨v, Tree.evaluate_ok_iff.1 (answer_mapError_ok.1 hv), ht, rfl⟩
  · rintro ⟨v, hv, ht, rfl⟩
    refine answer_bind_ok.2 ⟨v, answer_mapError_ok.2 hv.evaluate, ?_⟩
    rw [ht]
    rfl

end RulesText.Roll
