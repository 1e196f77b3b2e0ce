/-
The kinds of roll expressions. `HasKind` says before a roll is worked out whether an expression is a
number, words or a comparison. An expression with a kind has a value of that kind at every rank
(`HasKind.hasValue`), and an expression without choices has a value only if it has a kind
(`HasValue.hasKind`).
-/
import RulesText.Proofs.Roll.Values

namespace RulesText.Roll

/-! ## Kinds -/

inductive Kind
  | number
  | words
  | truth
  deriving DecidableEq, Repr

/-- The kind of what an operator makes of two operands: comparisons are no operands, and one operand
of words makes words of both. -/
def Kind.joined : Kind → Kind → Option Kind
  | .truth, _ | _, .truth => none
  | .number, .number => some .number
  | .words, _ | _, .words => some .words

def Value.kind : Value → Kind
  | .number _ => .number
  | .words _ => .words
  | .truth _ => .truth

/-- The kind of an expression, the same at every rank. -/
inductive HasKind : Tree → Kind → Prop
  | number (value : Float) : HasKind (.number value) .number
  | reference {text : Text} : isRankReference text = true → HasKind (.name text) .number
  | name {text : Text} : isRankReference text = false → HasKind (.name text) .words
  | binary {op : Operator} {left right : Tree} {j k l : Kind} :
      HasKind left j → HasKind right k → j.joined k = some l → HasKind (.binary op left right) l
  | whole {f : Builtin} {t : Tree} :
      f = .ceil ∨ f = .floor → HasKind t .number → HasKind (.call f [t]) .number
  | larger {t u : Tree} :
      HasKind t .number → HasKind u .number → HasKind (.call .max [t, u]) .number
  | comparison {t u : Tree} :
      HasKind t .number → HasKind u .number → HasKind (.call .gte [t, u]) .truth
  | choice {condition yes no : Tree} {k : Kind} :
      HasKind condition .truth → HasKind yes k → HasKind no k →
      HasKind (.call .ternary [condition, yes, no]) k
  | dice {count : Tree} {k : Kind} (die : Text) :
      HasKind count k → k ≠ .truth → HasKind (.dice count die) .words

/-- A function is called somewhere in an expression, with whatever arguments. -/
inductive Tree.Calls (f : Builtin) : Tree → Prop
  | here (arguments : List Tree) : Calls f (.call f arguments)
  | argument (g : Builtin) {t : Tree} {arguments : List Tree} :
      t ∈ arguments → Calls f t → Calls f (.call g arguments)
  | left (op : Operator) {left : Tree} (right : Tree) :
      Calls f left → Calls f (.binary op left right)
  | right (op : Operator) (left : Tree) {right : Tree} :
      Calls f right → Calls f (.binary op left right)
  | count {count : Tree} (die : Text) : Calls f count → Calls f (.dice count die)

/-! ## Operators -/

namespace Operator

theorem identity_answer (op : Operator) (other : Value) :
    (op.identity other).answer = .ok other := by
  unfold identity
  split <;> rfl

/-- Words beside a number stay words, also if a zero gives way to them. -/
theorem apply_number_words (op : Operator) (x : Float) (text : Text) :
    ∃ words, (op.apply (.number x) (.words text)).answer = .ok (.words words) := by
  cases hx : x == 0 <;> simp [apply, Value.isTruth, Value.isZero, hx, identity_answer]

theorem apply_words_number (op : Operator) (text : Text) (x : Float) :
    ∃ words, (op.apply (.words text) (.number x)).answer = .ok (.words words) := by
  cases hx : x == 0 <;> simp [apply, Value.isTruth, Value.isZero, hx, identity_answer]

/-- An operator has a value exactly for operands whose kinds it joins, and of the kind to which it
joins them. -/
theorem apply_kind (op : Operator) (left right : Value) :
    (op.apply left right).answer.toOption.map Value.kind = left.kind.joined right.kind := by
  cases left with
  | truth => cases right <;> rfl
  | number x =>
    cases right with
    | truth | number => rfl
    | words text =>
      obtain ⟨words, h⟩ := op.apply_number_words x text
      rw [h]
      rfl
  | words text =>
    cases right with
    | truth | words => rfl
    | number x =>
      obtain ⟨words, h⟩ := op.apply_words_number text x
      rw [h]
      rfl

theorem apply_ok_of_joined (op : Operator) {left right : Value} {k : Kind}
    (h : left.kind.joined right.kind = some k) :
    ∃ v, (op.apply left right).answer = .ok v ∧ v.kind = k := by
  have hkind := op.apply_kind left right
  rw [h] at hkind
  cases ha : (op.apply left right).answer with
  | error cause =>
    rw [ha] at hkind
    cases hkind
  | ok v =>
    rw [ha] at hkind
    exact ⟨v, rfl, Option.some.inj hkind⟩

theorem joined_of_apply_ok {op : Operator} {left right v : Value}
    (h : (op.apply left right).answer = .ok v) : left.kind.joined right.kind = some v.kind := by
  rw [← op.apply_kind, h]
  rfl

end Operator

/-! ## Expressions -/

theorem Value.isTruth_eq_false {v : Value} : v.isTruth = false ↔ v.kind ≠ .truth := by
  cases v <;> simp [isTruth, kind]

/-- An expression with a kind has a value of that kind. -/
theorem HasKind.hasValue {t : Tree} {k : Kind} (h : HasKind t k) (rank : Rank) :
    ∃ v, t.HasValue rank v ∧ v.kind = k := by
  induction h with
  | number value => exact ⟨_, .number value, rfl⟩
  | reference href => exact ⟨_, .reference href, rfl⟩
  | name href => exact ⟨_, .name href, rfl⟩
  | @binary op _ _ _ _ _ _ _ hj ihl ihr =>
    obtain ⟨l, hl, rfl⟩ := ihl
    obtain ⟨r, hr, rfl⟩ := ihr
    obtain ⟨v, happly, hv⟩ := op.apply_ok_of_joined hj
    exact ⟨v, .binary hl hr happly, hv⟩
  | whole hf _ ih =>
    obtain ⟨v, hv, hk⟩ := ih
    cases v <;> cases hk
    rcases hf with rfl | rfl
    · exact ⟨_, .ceil hv, rfl⟩
    · exact ⟨_, .floor hv, rfl⟩
  | larger _ _ iht ihu =>
    obtain ⟨v, hv, hk⟩ := iht
    obtain ⟨w, hw, hj⟩ := ihu
    cases v <;> cases hk
    cases w <;> cases hj
    exact ⟨_, .max hv hw, rfl⟩
  | comparison _ _ iht ihu =>
    obtain ⟨v, hv, hk⟩ := iht
    obtain ⟨w, hw, hj⟩ := ihu
    cases v <;> cases hk
    cases w <;> cases hj
    exact ⟨_, .gte hv hw, rfl⟩
  | @choice _ yes no _ _ _ _ ihc ihyes ihno =>
    obtain ⟨c, hc, hk⟩ := ihc
    cases c <;> cases hk
    rename_i holds
    cases holds
    · obtain ⟨v, hv, hk⟩ := ihno
      exact ⟨v, .no yes hc hv, hk⟩
    · obtain ⟨v, hv, hk⟩ := ihyes
      exact ⟨v, .yes no hc hv, hk⟩
  | dice die _ hk ih =>
    obtain ⟨c, hc, rfl⟩ := ih
    exact ⟨_, .dice die hc (Value.isTruth_eq_false.2 hk), rfl⟩

/-- An expression without choices that has a value has the kind of that value. -/
theorem Tree.HasValue.hasKind {t : Tree} {rank : Rank} {v : Value} (h : t.HasValue rank v)
    (free : ¬ t.Calls .ternary) : HasKind t v.kind := by
  induction h with
  | number x => exact .number x
  | reference href => exact .reference href
  | name href => exact .name href
  | binary _ _ happly ihl ihr =>
    exact .binary (ihl fun h => free (.left _ _ h)) (ihr fun h => free (.right _ _ h))
      (Operator.joined_of_apply_ok happly)
  | dice die _ ht ih => exact .dice die (ih fun h => free (.count _ h)) (Value.isTruth_eq_false.1 ht)
  | ceil _ ih => exact .whole (.inl rfl) (ih fun h => free (.argument _ (by simp) h))
  | floor _ ih => exact .whole (.inr rfl) (ih fun h => free (.argument _ (by simp) h))
  | gte _ _ iht ihu =>
    exact .comparison (iht fun h => free (.argument _ (by simp) h))
      (ihu fun h => free (.argument _ (by simp) h))
  | max _ _ iht ihu =>
    exact .larger (iht fun h => free (.argument _ (by simp) h))
      (ihu fun h => free (.argument _ (by simp) h))
  | yes no | no yes => exact absurd (.here _) free

theorem HasKind.unique {t : Tree} {j k : Kind} (hj : HasKind t j) (hk : HasKind t k) : j = k := by
  obtain ⟨v, hv, rfl⟩ := hj.hasValue {}
  obtain ⟨w, hw, rfl⟩ := hk.hasValue {}
  rw [← Tree.evaluate_ok_iff] at hv hw
  rw [hv] at hw
  cases hw
  rfl

/-! ## Working out -/

/-- Kinds are sound: an expression with a kind is worked out to a value of that kind. They are
complete for expressions without choices: one without a kind fails. So a term without choices is
written out exactly if it is a number or words. All of this holds at every rank. -/
theorem evaluate_by_kind :
    (∀ t k, HasKind t k → ∀ rank, ∃ v, (t.evaluate rank).answer = .ok v ∧ v.kind = k) ∧
    (∀ t, ¬ t.Calls .ternary → (∀ k, ¬ HasKind t k) → ∀ rank,
      ∃ fault, (t.evaluate rank).answer = .error fault) ∧
    ∀ term : Term, ¬ term.expression.Calls .ternary → ∀ rank,
      ((∃ text, (term.render rank).answer = .ok text) ↔
        HasKind term.expression .number ∨ HasKind term.expression .words) := by
  refine ⟨fun t k h rank => ?_, fun t free none rank => ?_, fun term free rank => ?_⟩
  · obtain ⟨v, hv, hk⟩ := h.hasValue rank
    exact ⟨v, hv.evaluate, hk⟩
  · cases h : (t.evaluate rank).answer with
    | error fault => exact ⟨fault, rfl⟩
    | ok v => exact absurd ((Tree.evaluate_ok_iff.1 h).hasKind free) (none _)
  · constructor
    · rintro ⟨text, h⟩
      obtain ⟨v, hv, ht, -⟩ := Term.render_ok_iff.1 h
      have hk := hv.hasKind free
      cases v
      · exact .inl hk
      · exact .inr hk
      · cases ht
    · intro h
      obtain ⟨v, hv, ht⟩ : ∃ v, term.expression.HasValue rank v ∧ v.isTruth = false := by
        rcases h with h | h <;> obtain ⟨v, hv, hk⟩ := h.hasValue rank <;> cases v <;> cases hk <;>
          exact ⟨_, hv, rfl⟩
      exact ⟨_, Term.render_ok_iff.2 ⟨v, hv, ht, rfl⟩⟩

/-- A choice between dice is words at every rank, rounding dice fails at every rank, and dice with the
rank added to them can be written out. -/
theorem dice_by_kind :
    (let t : Tree := .call .ternary [.call .gte [.name "@item.level".toList, .number 5],
        .name "2d6".toList, .name "1d6".toList]
      ∀ rank, ∃ v, (t.evaluate rank).answer = .ok v ∧ v.kind = .words) ∧
    (∀ rank, ∃ fault, ((Tree.call .ceil [.name "1d4".toList]).evaluate rank).answer = .error fault) ∧
    let t : Tree := .binary .add (.name "1d4".toList) (.name "@item.rank".toList)
    ∀ rank, ∃ text, (Term.render rank ⟨t, none, t.text, 0⟩).answer = .ok text := by
  refine ⟨evaluate_by_kind.1 _ _ ?_, evaluate_by_kind.2.1 _ ?_ ?_,
    fun rank => (evaluate_by_kind.2.2 _ ?_ rank).2 (.inr ?_)⟩
  · exact .choice (.comparison (.reference rfl) (.number 5)) (.name rfl) (.name rfl)
  · rintro (_ | ⟨_, mem, h⟩)
    rw [List.mem_singleton.1 mem] at h
    cases h
  · intro k h
    cases h with
    | whole _ h => cases h with
      | reference h => exact absurd h (by decide)
  · rintro (_ | _ | ⟨_, _, h⟩ | ⟨_, _, h⟩ | _) <;> cases h
  · exact .binary (.name rfl) (.reference rfl) rfl

end RulesText.Roll
