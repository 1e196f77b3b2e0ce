/-
The values that roll expressions have, and what an operator makes of two of them. A number zero
beside a word gives way to the word, so that a bonus of zero leaves dice as they are.
-/
import RulesText.Journal
import RulesText.Number.Whole

namespace RulesText.Roll

/-- The value of a roll expression. -/
inductive Value
  | number (value : Float)
  /-- Dice, or any other words that stay as they are written. -/
  | words (text : Text)
  | truth (holds : Bool)
  deriving DecidableEq

namespace Value

/-- The text of a value; a number is written as the nearest whole number. -/
def text : Value → Text
  | .number value => Number.wholeText value
  | .words text => text
  | .truth holds => if holds then "true".toList else "false".toList

def number? : Value → Option Float
  | .number value => some value
  | _ => none

/-- Whether a value is the number zero, of either sign. -/
def isZero : Value → Bool
  | .number value => value == 0
  | _ => false

def isTruth : Value → Bool
  | .truth _ => true
  | _ => false

end Value

/-- Takes `other` as the result of an operator whose other operand is zero; only sums leave no
record of it. -/
def Operator.identity (op : Operator) (other : Value) : Logged Cause Value := do
  if op = .multiply ∨ op = .divide then Logged.note (.zeroIdentity op other.text)
  return other

/-- The value of an operator applied to two values. Comparisons are no operands; two numbers are
computed with; a zero beside words is an identity, and any other two values are written side by
side. -/
def Operator.apply (op : Operator) (left right : Value) : Logged Cause Value :=
  if left.isTruth || right.isTruth then Logged.fail .comparisonInArithmetic
  else
    match left, right with
    | .number x, .number y => pure (.number (op.compute x y))
    | left, right =>
      if left.isZero then op.identity right
      else if right.isZero then op.identity left
      else pure (.words (left.text ++ ' ' :: op.sign :: ' ' :: right.text))

end RulesText.Roll
