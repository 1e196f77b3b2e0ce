/-
The expression tree of a roll term, and the text in which a tree is shown: every operation in
parentheses, numbers with the fewest digits that read back.
-/
import RulesText.Number.Decimal
import RulesText.Roll.Builtin
import RulesText.Roll.Operator

namespace RulesText.Roll

/-- A roll expression. Arguments are in the order in which they are written. -/
inductive Tree
  | number (value : Float)
  /-- Dice such as `2d8`, a reference, or any other word. -/
  | name (text : Text)
  | binary (op : Operator) (left right : Tree)
  | call (function : Builtin) (arguments : List Tree)
  /-- As many dice as `count` says, of the size that `die` names, such as `d4`. -/
  | dice (count : Tree) (die : Text)

namespace Tree

/-- Induction on a tree, with all arguments of a call at once. -/
@[elab_as_elim, induction_eliminator]
theorem induct {motive : Tree → Prop} (number : ∀ value, motive (.number value))
    (name : ∀ text, motive (.name text))
    (binary : ∀ op left right, motive left → motive right → motive (.binary op left right))
    (call : ∀ f arguments, (∀ t ∈ arguments, motive t) → motive (.call f arguments))
    (dice : ∀ count die, motive count → motive (.dice count die)) (t : Tree) : motive t :=
  Tree.rec number name binary call dice (fun _ h => nomatch h)
    (fun _ _ ht hts u hu => (List.mem_cons.1 hu).elim (fun h => h ▸ ht) (hts u)) t

mutual

/-- The text in which a tree is shown. -/
def text : Tree → Text
  | .number value => Number.exactText value
  | .name text => text
  | .binary op left right =>
    '(' :: left.text ++ ' ' :: op.sign :: ' ' :: right.text ++ [')']
  | .call function arguments => function.name ++ '(' :: textList arguments ++ [')']
  | .dice count die => '(' :: count.text ++ ')' :: die
termination_by structural t => t

/-- The texts of some trees with commas between them. -/
def textList : List Tree → Text
  | [] => []
  | t :: ts => t.text ++ textRest ts
termination_by structural ts => ts

/-- The texts of some trees with a comma before each. -/
def textRest : List Tree → Text
  | [] => []
  | t :: ts => ',' :: ' ' :: t.text ++ textRest ts
termination_by structural ts => ts

end

/-- A word is a die size if it is `d` and one or more digits. -/
def isDie : Text → Bool
  | 'd' :: size => !size.isEmpty && size.all Char.isDigit
  | _ => false

/-- The tree of an atom: a number if the atom is a literal, else a name. -/
def leaf (t : Text) : Tree :=
  match Number.Decimal.ofLiteral? t with
  | some literal => .number literal.toFloat
  | none => .name t

end Tree

/-- A term of a roll: its expression, its damage type if one is written, its text without that
type, and the byte at which that text begins. -/
structure Term where
  expression : Tree
  damageType : Option Text
  source : Text
  offset : Nat

end RulesText.Roll
