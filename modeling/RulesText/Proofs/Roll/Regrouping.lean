/-
Reading again what a roll of dice is worked out to. Its words and operators are written side by side
without parentheses, so they are read in the same order, but grouped as the strengths of the
operators say; the tree is the same exactly if it needs no parentheses
(`evaluate_read_regrouped`).
-/
import RulesText.Proofs.Roll.Meaning
import RulesText.Proofs.Roll.RoundTrip

namespace RulesText.Roll

open Grammar

namespace Tree

/-! ## Trees of dice -/

/-- Operators over dice and other words, none of which stands for the rank. -/
inductive OfDice : Tree → Prop
  | name {a : Text} : isRankReference a = false → OfDice (.name a)
  | binary (op : Operator) {left right : Tree} :
      OfDice left → OfDice right → OfDice (.binary op left right)

/-- The words and operators of a tree in order, without parentheses. -/
def flat : Tree → List Lexeme
  | .name a => [.atom a]
  | .binary op left right => left.flat ++ .operator op :: right.flat
  | _ => []

/-- The text of the words and operators of a tree, with a blank on both sides of an operator. -/
def flatText : Tree → Text
  | .name a => a
  | .binary op left right => left.flatText ++ ' ' :: op.sign :: ' ' :: right.flatText
  | _ => []

/-- How tightly a tree holds together: as its last operator binds, and tighter than any operator if
there is none. -/
def strength : Tree → Nat
  | .binary op _ _ => op.strength
  | _ => 3

/-- A tree that needs no parentheses: operators are grouped by their strengths, and to the left
where these are equal. -/
inductive Ungrouped : Tree → Prop
  | name (a : Text) : Ungrouped (.name a)
  | binary {op : Operator} {left right : Tree} :
      Ungrouped left → Ungrouped right → op.strength ≤ left.strength →
      op.strength < right.strength → Ungrouped (.binary op left right)

variable {t : Tree}

theorem OfDice.numbers (h : t.OfDice) : t.numbers = [] := by
  induction h with
  | name => rfl
  | binary op _ _ ihl ihr => rw [Tree.numbers, ihl, ihr, List.nil_append]

/-! ## Working out -/

theorem OfDice.hasValue (h : t.OfDice) (rank : Rank) : t.HasValue rank (.words t.flatText) := by
  induction h with
  | name word => exact .name word
  | binary op _ _ ihl ihr => exact .binary ihl ihr rfl

end Tree

/-! ## Scanning -/

theorem Token.lexemes_operator (op : Operator) (rest : Text) :
    lexemes (op.sign :: rest) = (lexemes rest).map (.operator op :: ·) :=
  lexemes_next (by cases op <;> rfl) (by cases op <;> rfl)

namespace Tree

variable {t : Tree}

theorem OfDice.lexemes_flatText (h : t.OfDice) (words : t.WellFormed) {rest : Text}
    (ends : Token.EndsAtom rest) :
    Token.lexemes (t.flatText ++ rest) = (Token.lexemes rest).map (t.flat ++ ·) := by
  induction h generalizing rest with
  | name _ => exact Token.lexemes_atom words.1 ends
  | @binary op left right _ _ ihl ihr =>
    have shown : (Tree.binary op left right).flatText ++ rest =
        left.flatText ++ (' ' :: op.sign :: ' ' :: (right.flatText ++ rest)) := by simp [flatText]
    rw [shown, ihl words.1 (Token.endsAtom_cons rfl _), Token.lexemes_layout rfl,
      Token.lexemes_operator, Token.lexemes_layout rfl, ihr words.2 ends]
    simp [flat, Function.comp_def]

theorem OfDice.scan_flatText (h : t.OfDice) (words : t.WellFormed) :
    ∃ tokens, Token.scan t.flatText = .ok tokens ∧ tokens.map (·.lexeme) = t.flat := by
  rw [← Token.lexemes_eq_some_iff, ← List.append_nil t.flatText,
    h.lexemes_flatText words Token.endsAtom_nil, Token.lexemes_nil, Option.map_some,
    List.append_nil]

end Tree

/-! ## Grouping -/

namespace Grammar

theorem leaf_of_words {a : Text} (words : (Tree.name a).WellFormed) :
    Factor [.atom a] (.name a) := by
  have leaf := Factor.leaf words.2.1
  rwa [Tree.leaf_of_name words.2.2] at leaf

/-- A tree that needs no parentheses is read from its words and operators. -/
theorem sum_of_ungrouped {t : Tree} (ungrouped : t.Ungrouped) (words : t.WellFormed) :
    Sum t.flat t ∧ (2 ≤ t.strength → Product t.flat t) ∧ (3 ≤ t.strength → Factor t.flat t) := by
  induction ungrouped with
  | name a =>
    have leaf := leaf_of_words words
    exact ⟨.product (.factor leaf), fun _ => .factor leaf, fun _ => leaf⟩
  | @binary op left right _ _ hl hr ihl ihr =>
    obtain ⟨suml, productl, -⟩ := ihl words.1
    obtain ⟨-, productr, factorr⟩ := ihr words.2
    rcases strength_cases op with h | h
    · rw [h] at hl hr
      have sum := suml.more (strength_sum.1 h) (productr hr)
      refine ⟨sum, fun le => ?_, fun le => ?_⟩
      all_goals
        rw [Tree.strength, h] at le
        omega
    · rw [h] at hl hr
      have product := (productl hl).more (strength_product.1 h) (factorr hr)
      refine ⟨.product product, fun _ => product, fun le => ?_⟩
      rw [Tree.strength, h] at le
      omega

/-- An operator and a word behind a sum are read with it. -/
theorem sum_snoc {w : List Lexeme} {t : Tree} (sum : Sum w t) (op : Operator) {a : Text}
    (words : (Tree.name a).WellFormed) : ∃ u, Sum (w ++ [.operator op, .atom a]) u := by
  have leaf := leaf_of_words words
  rcases strength_cases op with h | h
  · exact ⟨_, sum.more (strength_sum.1 h) (.factor leaf)⟩
  · -- A strong operator takes the last product of the sum as its left operand.
    cases sum with
    | product product => exact ⟨_, .product (product.more (strength_product.1 h) leaf)⟩
    | more sum weak product =>
      rw [List.append_assoc, List.cons_append]
      exact ⟨_, sum.more weak (product.more (strength_product.1 h) leaf)⟩

theorem sum_append {w : List Lexeme} {t : Tree} (sum : Sum w t) (op : Operator) {r : Tree}
    (dice : r.OfDice) (words : r.WellFormed) : ∃ u, Sum (w ++ .operator op :: r.flat) u := by
  induction dice generalizing w t op with
  | name _ => exact sum_snoc sum op words
  | @binary op' left right _ _ ihl ihr =>
    obtain ⟨u, first⟩ := ihl sum op words.1
    have both := ihr first op' words.2
    simpa [Tree.flat] using both

/-- The words and operators of any tree of dice are read as a tree. -/
theorem sum_of_dice {t : Tree} (dice : t.OfDice) (words : t.WellFormed) : ∃ u, Sum t.flat u := by
  induction dice with
  | name _ => exact ⟨_, .product (.factor (leaf_of_words words))⟩
  | binary op _ right ihl _ =>
    obtain ⟨u, sum⟩ := ihl words.1
    exact sum_append sum op right words.2

/-! ## Reading without parentheses -/

/-- No parenthesis opens in a word, and none of its atoms is a literal. -/
structure Plain (w : List Lexeme) : Prop where
  opening : .opening ∉ w
  literal : ∀ a, Lexeme.atom a ∈ w → Number.Decimal.ofLiteral? a = none

theorem plain_append {v w : List Lexeme} : Plain (v ++ w) ↔ Plain v ∧ Plain w := by
  constructor
  · rintro ⟨opening, literal⟩
    rw [List.mem_append, not_or] at opening
    exact ⟨⟨opening.1, fun a ha => literal a (List.mem_append_left _ ha)⟩,
      ⟨opening.2, fun a ha => literal a (List.mem_append_right _ ha)⟩⟩
  · rintro ⟨hv, hw⟩
    refine ⟨fun mem => (List.mem_append.1 mem).elim hv.opening hw.opening, fun a ha => ?_⟩
    exact (List.mem_append.1 ha).elim (hv.literal a) (hw.literal a)

theorem Plain.tail {l : Lexeme} {w : List Lexeme} (h : Plain (l :: w)) : Plain w :=
  (plain_append (v := [l]).1 h).2

theorem plain_flat {t : Tree} (dice : t.OfDice) (words : t.WellFormed) : Plain t.flat := by
  induction dice with
  | name _ =>
    refine ⟨by simp [Tree.flat], fun a ha => ?_⟩
    obtain rfl : a = _ := by simpa [Tree.flat] using ha
    exact words.2.2
  | binary op _ _ ihl ihr =>
    have sign : Plain [.operator op] := ⟨by simp, by simp⟩
    exact plain_append.2 ⟨ihl words.1, plain_append (v := [_]).2 ⟨sign, ihr words.2⟩⟩

theorem Group.opening_mem {w : List Lexeme} {t : Tree} (h : Group w t) : .opening ∈ w := by
  cases h <;> simp

theorem Factor.ungrouped {w : List Lexeme} {t : Tree} (h : Factor w t) (plain : Plain w) :
    t.Ungrouped ∧ t.flat = w ∧ t.strength = 3 := by
  cases h with
  | leaf function =>
    rw [Tree.leaf_of_name (plain.literal _ List.mem_cons_self)]
    exact ⟨.name _, rfl, rfl⟩
  | group group => exact absurd group.opening_mem plain.opening
  | dice group _ => exact absurd (List.mem_append_left _ group.opening_mem) plain.opening

theorem Product.ungrouped {w : List Lexeme} {t : Tree} :
    Product w t → Plain w → t.Ungrouped ∧ t.flat = w ∧ 2 ≤ t.strength
  | .factor only, plain => by
    obtain ⟨ungrouped, flat, strength⟩ := only.ungrouped plain
    exact ⟨ungrouped, flat, by omega⟩
  | .more front strong last, plain => by
    obtain ⟨plainl, plainr⟩ := plain_append.1 plain
    obtain ⟨left, flatl, strengthl⟩ := front.ungrouped plainl
    obtain ⟨right, flatr, strengthr⟩ := last.ungrouped plainr.tail
    have strength := strength_product.2 strong
    refine ⟨.binary left right (by omega) (by omega), ?_, by rw [Tree.strength, strength]⟩
    rw [Tree.flat, flatl, flatr]

/-- What is read from a word without parentheses needs none. -/
theorem Sum.ungrouped {w : List Lexeme} {t : Tree} :
    Sum w t → Plain w → t.Ungrouped ∧ t.flat = w ∧ 1 ≤ t.strength
  | .product only, plain => by
    obtain ⟨ungrouped, flat, strength⟩ := only.ungrouped plain
    exact ⟨ungrouped, flat, by omega⟩
  | .more front weak last, plain => by
    obtain ⟨plainl, plainr⟩ := plain_append.1 plain
    obtain ⟨left, flatl, strengthl⟩ := front.ungrouped plainl
    obtain ⟨right, flatr, strengthr⟩ := last.ungrouped plainr.tail
    have strength := strength_sum.2 weak
    refine ⟨.binary left right (by omega) (by omega), ?_, by rw [Tree.strength, strength]⟩
    rw [Tree.flat, flatl, flatr]

end Grammar

/-! ## The whole roll -/

/-- A word that is a sum is read as one term without a damage type. -/
theorem parse_of_sum {source : Text} {tokens : List Token} {t : Tree}
    (scan : Token.scan source = .ok tokens) (sum : Sum (tokens.map (·.lexeme)) t) :
    ∃ term, parse source = .ok [term] ∧ term.expression = t ∧ term.damageType = none := by
  obtain ⟨terms, read, contents⟩ := parse_of_damage scan (.one (.bare sum))
  obtain ⟨term, rfl, content⟩ := List.map_eq_singleton_iff.1 contents
  obtain ⟨expression, bare⟩ := Prod.mk.inj content
  exact ⟨term, read, expression, bare⟩

/-- A roll that is read as one tree of dice without a damage type is worked out to a text that is
read as one tree again. The tree that comes back needs no parentheses and has the same words and
operators in the same order, and it is the same tree exactly if that one needs no parentheses
either. -/
theorem evaluate_read_regrouped {source : Text} {term : Term} (read : parse source = .ok [term])
    (bare : term.damageType = none) (dice : term.expression.OfDice) (rank : Rank) :
    ∃ text again, (evaluate rank source).answer = .ok text ∧ parse text = .ok [again] ∧
      again.damageType = none ∧ again.expression.Ungrouped ∧
      again.expression.flat = term.expression.flat ∧
      (again.expression = term.expression ↔ term.expression.Ungrouped) := by
  have words : term.expression.WellFormed :=
    wellFormed_of_parse read List.mem_cons_self fun x hx => by simp [dice.numbers] at hx
  have evaluated : (evaluate rank source).answer = .ok term.expression.flatText := by
    have written : Written rank term.content term.expression.flatText :=
      ⟨_, dice.hasValue rank, rfl, by simp [Value.labelled, Term.content, bare, Value.text]⟩
    rw [evaluate, read]
    exact Logged.answer_bind_ok.2 ⟨[term], rfl, Logged.answer_map_ok.2
      ⟨[_], renderTerms_ok_iff.2 (.cons written .nil), by simp [List.intercalate]⟩⟩
  obtain ⟨tokens, scan, flat⟩ := dice.scan_flatText words
  obtain ⟨u, sum⟩ := sum_of_dice dice words
  rw [← flat] at sum
  obtain ⟨again, readAgain, rfl, bareAgain⟩ := parse_of_sum scan sum
  rw [flat] at sum
  obtain ⟨ungrouped, flat', -⟩ := sum.ungrouped (plain_flat dice words)
  refine ⟨_, again, evaluated, readAgain, bareAgain, ungrouped, flat', fun same => same ▸ ungrouped,
    fun h => ?_⟩
  have same := (sum_of_ungrouped h words).1
  rw [← flat] at same
  obtain ⟨again', readAgain', e, -⟩ := parse_of_sum scan same
  rw [readAgain] at readAgain'
  cases readAgain'
  exact e

/-- Dice that are added before they are multiplied are multiplied first when they are read again. -/
theorem product_of_sum_regrouped :
    let t : Tree := .binary .multiply (.binary .add (.name "1d4".toList) (.name "1d6".toList))
      (.name "2d8".toList)
    ∃ text again, (evaluate {} t.text).answer = .ok text ∧ parse text = .ok [again] ∧
      again.damageType = none ∧ again.expression.Ungrouped ∧ again.expression.flat = t.flat ∧
      (again.expression = t ↔ t.Ungrouped) := by
  intro t
  have read : parse t.text = .ok [⟨t, none, t.text, 0⟩] :=
    parse_text ⟨⟨⟨⟨by decide, by decide⟩, by decide, by decide⟩, ⟨by decide, by decide⟩, by decide,
      by decide⟩, ⟨by decide, by decide⟩, by decide, by decide⟩
  have dice : t.OfDice := .binary _ (.binary _ (.name rfl) (.name rfl)) (.name rfl)
  exact evaluate_read_regrouped read rfl dice {}

/-- The parentheses around a sum of dice that is multiplied are lost. -/
theorem parentheses_lost :
    let t : Tree := .binary .multiply (.binary .add (.name "1d4".toList) (.name "1d6".toList))
      (.name "2d8".toList)
    t.OfDice ∧
      (∃ term, parse "(1d4+1d6)*2d8".toList = .ok [term] ∧ term.expression = t ∧
        term.damageType = none) ∧
      (evaluate {} "(1d4+1d6)*2d8".toList).answer = .ok "1d4 + 1d6 * 2d8".toList ∧
      ∃ again, parse "1d4 + 1d6 * 2d8".toList = .ok [again] ∧ again.expression ≠ t := by
  intro t
  have d4 : Factor [.atom "1d4".toList] (.name "1d4".toList) := Factor.leaf (by decide)
  have d6 : Factor [.atom "1d6".toList] (.name "1d6".toList) := Factor.leaf (by decide)
  have d8 : Factor [.atom "2d8".toList] (.name "2d8".toList) := Factor.leaf (by decide)
  have grouped : Sum _ t := .product (.more
    (.factor (.group (.parentheses (.more (.product (.factor d4)) (.inl rfl) (.factor d6)))))
    (.inl rfl) d8)
  have flat : Grammar.Sum _ _ :=
    .more (.product (.factor d4)) (.inl rfl) (.more (.factor d6) (.inl rfl) d8)
  have scan : Token.scan "(1d4+1d6)*2d8".toList = .ok [⟨.opening, 0⟩, ⟨.atom "1d4".toList, 1⟩,
      ⟨.operator .add, 4⟩, ⟨.atom "1d6".toList, 5⟩, ⟨.closing, 8⟩, ⟨.operator .multiply, 9⟩,
      ⟨.atom "2d8".toList, 10⟩] := by decide +kernel
  have scanAgain : Token.scan "1d4 + 1d6 * 2d8".toList = .ok [⟨.atom "1d4".toList, 0⟩,
      ⟨.operator .add, 4⟩, ⟨.atom "1d6".toList, 6⟩, ⟨.operator .multiply, 10⟩,
      ⟨.atom "2d8".toList, 12⟩] := by decide +kernel
  obtain ⟨again, read, e, -⟩ := parse_of_sum scanAgain flat
  refine ⟨.binary _ (.binary _ (.name rfl) (.name rfl)) (.name rfl), parse_of_sum scan grouped,
    by decide +kernel, again, read, ?_⟩
  rw [e]
  show Tree.binary .add _ _ ≠ .binary .multiply _ _
  nofun

end RulesText.Roll
