/-
The grammar of damage rolls over lexemes. Every rule also says which tree its lexemes stand for:
sums and products group to the left, products bind tighter, parentheses add no node, and a die size
may follow a group but no other factor.
-/
import RulesText.Roll.Token
import RulesText.Roll.Tree

namespace RulesText.Roll

/-- What the grammar says of a term. -/
def Term.content (term : Term) : Tree × Option Text := (term.expression, term.damageType)

namespace Grammar

mutual

/-- A sum in parentheses, or a call with as many arguments as its function takes. -/
inductive Group : List Lexeme → Tree → Prop
  | parentheses {w : List Lexeme} {t : Tree} :
      Sum w t → Group (.opening :: (w ++ [.closing])) t
  | call {f : Builtin} {w : List Lexeme} {ts : List Tree} :
      Arguments w ts → ts.length = f.arity →
      Group (.atom f.name :: .opening :: (w ++ [.closing])) (.call f ts)

/-- An operand. -/
inductive Factor : List Lexeme → Tree → Prop
  | leaf {a : Text} : Builtin.ofName? a = none → Factor [.atom a] (Tree.leaf a)
  | group {w : List Lexeme} {t : Tree} : Group w t → Factor w t
  | dice {w : List Lexeme} {t : Tree} {die : Text} :
      Group w t → Tree.isDie die = true → Factor (w ++ [.atom die]) (.dice t die)

/-- Factors with `*` or `/` between them. -/
inductive Product : List Lexeme → Tree → Prop
  | factor {w : List Lexeme} {t : Tree} : Factor w t → Product w t
  | more {v w : List Lexeme} {l r : Tree} {op : Operator} :
      Product v l → op = .multiply ∨ op = .divide → Factor w r →
      Product (v ++ .operator op :: w) (.binary op l r)

/-- Products with `+` or `-` between them. -/
inductive Sum : List Lexeme → Tree → Prop
  | product {w : List Lexeme} {t : Tree} : Product w t → Sum w t
  | more {v w : List Lexeme} {l r : Tree} {op : Operator} :
      Sum v l → op = .add ∨ op = .subtract → Product w r →
      Sum (v ++ .operator op :: w) (.binary op l r)

/-- Sums with commas between them. -/
inductive Arguments : List Lexeme → List Tree → Prop
  | one {w : List Lexeme} {t : Tree} : Sum w t → Arguments w [t]
  | more {v w : List Lexeme} {ts : List Tree} {t : Tree} :
      Arguments v ts → Sum w t → Arguments (v ++ .comma :: w) (ts ++ [t])

end

/-- A term: a sum, and the damage type behind it if there is one. -/
inductive Entry : List Lexeme → Tree × Option Text → Prop
  | bare {w : List Lexeme} {t : Tree} : Sum w t → Entry w (t, none)
  | typed {w : List Lexeme} {t : Tree} (type : Text) :
      Sum w t → Entry (w ++ [.damageType type]) (t, some type)

/-- A damage roll: terms with commas between them. -/
inductive Damage : List Lexeme → List (Tree × Option Text) → Prop
  | one {w : List Lexeme} {p : Tree × Option Text} : Entry w p → Damage w [p]
  | more {v w : List Lexeme} {ps : List (Tree × Option Text)} {p : Tree × Option Text} :
      Damage v ps → Entry w p → Damage (v ++ .comma :: w) (ps ++ [p])

/-! ## No word is empty -/

theorem Group.ne_nil {w : List Lexeme} {t : Tree} (h : Group w t) : w ≠ [] := by
  cases h <;> simp

theorem Factor.ne_nil {w : List Lexeme} {t : Tree} (h : Factor w t) : w ≠ [] := by
  cases h with
  | leaf _ => simp
  | group g => exact g.ne_nil
  | dice _ _ => simp

theorem Product.ne_nil {w : List Lexeme} {t : Tree} (h : Product w t) : w ≠ [] := by
  cases h with
  | factor f => exact f.ne_nil
  | more _ _ _ => simp

theorem Sum.ne_nil {w : List Lexeme} {t : Tree} (h : Sum w t) : w ≠ [] := by
  cases h with
  | product p => exact p.ne_nil
  | more _ _ _ => simp

/-! ## From atoms to trees -/

/-- Whatever trees the grammar makes of atoms with the property `P` have the property `Q`. -/
structure Builds (P : Text → Prop) (Q : Tree → Prop) : Prop where
  leaf {a : Text} : Builtin.ofName? a = none → P a → Q (Tree.leaf a)
  binary (op : Operator) {l r : Tree} : Q l → Q r → Q (.binary op l r)
  call {f : Builtin} {ts : List Tree} : ts.length = f.arity → (∀ t ∈ ts, Q t) → Q (.call f ts)
  dice {die : Text} {t : Tree} : Tree.isDie die = true → P die → Q t → Q (.dice t die)

variable {P : Text → Prop} {Q : Tree → Prop}

mutual

theorem Group.built (h : Builds P Q) {w : List Lexeme} {t : Tree} :
    Group w t → (∀ a, Lexeme.atom a ∈ w → P a) → Q t
  | .parentheses sum, atoms => sum.built h fun a ha => atoms a (by simp [ha])
  | .call arguments arity, atoms =>
    h.call arity (arguments.built h fun a ha => atoms a (by simp [ha]))

theorem Factor.built (h : Builds P Q) {w : List Lexeme} {t : Tree} :
    Factor w t → (∀ a, Lexeme.atom a ∈ w → P a) → Q t
  | .leaf function, atoms => h.leaf function (atoms _ (by simp))
  | .group group, atoms => group.built h atoms
  | .dice group die, atoms =>
    h.dice die (atoms _ (by simp)) (group.built h fun a ha => atoms a (by simp [ha]))

theorem Product.built (h : Builds P Q) {w : List Lexeme} {t : Tree} :
    Product w t → (∀ a, Lexeme.atom a ∈ w → P a) → Q t
  | .factor factor, atoms => factor.built h atoms
  | .more product _ factor, atoms =>
    h.binary _ (product.built h fun a ha => atoms a (by simp [ha]))
      (factor.built h fun a ha => atoms a (by simp [ha]))

theorem Sum.built (h : Builds P Q) {w : List Lexeme} {t : Tree} :
    Sum w t → (∀ a, Lexeme.atom a ∈ w → P a) → Q t
  | .product product, atoms => product.built h atoms
  | .more sum _ product, atoms =>
    h.binary _ (sum.built h fun a ha => atoms a (by simp [ha]))
      (product.built h fun a ha => atoms a (by simp [ha]))

theorem Arguments.built (h : Builds P Q) {w : List Lexeme} {ts : List Tree} :
    Arguments w ts → (∀ a, Lexeme.atom a ∈ w → P a) → ∀ t ∈ ts, Q t
  | .one sum, atoms => List.forall_mem_singleton.2 (sum.built h atoms)
  | .more arguments sum, atoms =>
    List.forall_mem_append.2 ⟨arguments.built h fun a ha => atoms a (by simp [ha]),
      List.forall_mem_singleton.2 (sum.built h fun a ha => atoms a (by simp [ha]))⟩

end

theorem Entry.built (h : Builds P Q) {w : List Lexeme} {p : Tree × Option Text} (entry : Entry w p)
    (atoms : ∀ a, Lexeme.atom a ∈ w → P a) : Q p.1 := by
  cases entry with
  | bare sum => exact sum.built h atoms
  | typed type sum => exact sum.built h fun a ha => atoms a (List.mem_append_left _ ha)

theorem Damage.built (h : Builds P Q) {w : List Lexeme} {ps : List (Tree × Option Text)}
    (damage : Damage w ps) (atoms : ∀ a, Lexeme.atom a ∈ w → P a) : ∀ p ∈ ps, Q p.1 := by
  induction damage with
  | one entry => exact List.forall_mem_singleton.2 (entry.built h atoms)
  | more _ entry ih =>
    refine List.forall_mem_append.2 ⟨ih fun a ha => atoms a (by simp [ha]), ?_⟩
    exact List.forall_mem_singleton.2 (entry.built h fun a ha => atoms a (by simp [ha]))

/-! ## Strengths -/

theorem strength_product {op : Operator} : op.strength = 2 ↔ op = .multiply ∨ op = .divide := by
  cases op <;> simp [Operator.strength]

theorem strength_sum {op : Operator} : op.strength = 1 ↔ op = .add ∨ op = .subtract := by
  cases op <;> simp [Operator.strength]

theorem strength_cases (op : Operator) : op.strength = 1 ∨ op.strength = 2 := by
  cases op <;> simp [Operator.strength]

end Grammar

end RulesText.Roll
