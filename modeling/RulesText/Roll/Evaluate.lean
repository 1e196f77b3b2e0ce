/-
Working out roll expressions and terms for a rank. Operands are worked out from left to right, a
fault ends the run, and only the branch that a condition selects is worked out.
-/
import RulesText.Rank
import RulesText.Roll.Reading
import RulesText.Roll.Value

namespace RulesText.Roll

/-- The words that stand for the rank. -/
def isRankReference (t : Text) : Bool := t = "@item.level".toList || t = "@item.rank".toList

/-- The number that the value of the argument `t` is. -/
def expectNumber (t : Tree) (v : Value) : Logged Fault Float :=
  match v.number? with
  | some x => pure x
  | none => Logged.fail ⟨.expectedNumber, t.text, 0⟩

/-- The value of an expression. A fault has the smallest expression at fault as its fragment and no
position of its own. -/
def Tree.evaluate (rank : Rank) : Tree → Logged Fault Value
  | .number value => pure (.number value)
  | .name text => pure (if isRankReference text then .number rank.number else .words text)
  | .binary op left right => do
    let l ← left.evaluate rank
    let r ← right.evaluate rank
    (op.apply l r).mapError fun cause => ⟨cause, (Tree.binary op left right).text, 0⟩
  | .dice count die => do
    let v ← count.evaluate rank
    if v.isTruth then Logged.fail ⟨.comparisonAsDieCount, (Tree.dice count die).text, 0⟩
    else pure (.words (v.text ++ die))
  | .call .ceil [t] => do
    let x ← expectNumber t (← t.evaluate rank)
    return .number (Number.ceil x)
  | .call .floor [t] => do
    let x ← expectNumber t (← t.evaluate rank)
    return .number (Number.floor x)
  | .call .gte [t, u] => do
    let x ← expectNumber t (← t.evaluate rank)
    let y ← expectNumber u (← u.evaluate rank)
    return .truth (y ≤ x)
  | .call .max [t, u] => do
    let x ← expectNumber t (← t.evaluate rank)
    let y ← expectNumber u (← u.evaluate rank)
    return .number (Number.larger x y)
  | .call .ternary [condition, yes, no] => do
    match ← condition.evaluate rank with
    | .truth true => yes.evaluate rank
    | .truth false => no.evaluate rank
    | _ => Logged.fail ⟨.conditionNotComparison, condition.text, 0⟩
  | .call function _ => Logged.fail ⟨.wrongArgumentCount, function.name, 0⟩
termination_by structural t => t

/-! ## Terms -/

/-- The words for a damage type: commas become blanks, bleeding always persists, and healing is no
damage. -/
def damageLabel (type : Text) : Text :=
  let label := type.map fun c => if c = ',' then ' ' else c
  if label = "bleed".toList then "persistent bleed".toList
  else if label = "healing".toList then []
  else label

/-- A term worked out for a rank: its value, and the words for its damage type if there are any. A
fault is located at the term. -/
def Term.render (rank : Rank) (t : Term) : Logged Fault Text := do
  let value ← (t.expression.evaluate rank).mapError fun fault => { fault with offset := t.offset }
  if value.isTruth then Logged.fail ⟨.comparisonAsRoll, t.source, t.offset⟩
  else
    let label := (t.damageType.map damageLabel).getD []
    return if label.isEmpty then value.text else value.text ++ ' ' :: label

/-- Terms worked out one after the other, up to the first fault. -/
def renderTerms (rank : Rank) : List Term → Logged Fault (List Text)
  | [] => pure []
  | t :: ts => do
    let text ← t.render rank
    (text :: ·) <$> renderTerms rank ts

/-- A roll worked out for a rank, with `and` between its terms. -/
def evaluate (rank : Rank) (roll : Text) : Logged Fault Text := do
  let terms ← Logged.ofExcept (parse roll)
  " and ".toList.intercalate <$> renderTerms rank terms

end RulesText.Roll
