/-
The four operators of a damage roll: their signs, how tightly they bind, and what they do to
numbers.
-/
import RulesText.Text.Basic

namespace RulesText.Roll

/-- An arithmetic operator between two operands. -/
inductive Operator
  | add
  | subtract
  | multiply
  | divide
  deriving DecidableEq, Repr

namespace Operator

def all : List Operator := [.add, .subtract, .multiply, .divide]

def sign : Operator → Char
  | .add => '+'
  | .subtract => '-'
  | .multiply => '*'
  | .divide => '/'

/-- How tightly an operator binds; operators of one strength group to the left. -/
def strength : Operator → Nat
  | .add | .subtract => 1
  | .multiply | .divide => 2

def ofSign? (c : Char) : Option Operator := all.find? (·.sign = c)

/-- The operator that a name consisting of its sign denotes. -/
def ofName? : Text → Option Operator
  | [c] => ofSign? c
  | _ => none

/-- The operator on numbers; dividing by zero gives an infinity or no number. -/
def compute : Operator → Float → Float → Float
  | .add, x, y => x + y
  | .subtract, x, y => x - y
  | .multiply, x, y => x * y
  | .divide, x, y => x / y

theorem ofSign?_sign (op : Operator) : ofSign? op.sign = some op := by cases op <;> rfl

theorem sign_of_ofSign? {c : Char} {op : Operator} (h : ofSign? c = some op) : op.sign = c := by
  simpa using List.find?_some h

end Operator

end RulesText.Roll
