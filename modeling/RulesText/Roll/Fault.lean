/-
What can be wrong with a damage roll: the cause, the part of the roll at fault, and where that part
begins.
-/
import RulesText.Text.Basic

namespace RulesText.Roll

/-- Why a roll cannot be read or worked out. -/
inductive Cause
  | unterminatedDamageType
  | unexpectedCharacter
  | uncalledFunction
  | unknownFunction
  | wrongArgumentCount
  | missingOperator
  /-- An operator, comma or closing parenthesis where an operand is due. -/
  | missingOperand
  | unmatchedClosing
  | unclosedGroup
  /-- A comma in parentheses that belong to no function. -/
  | unexpectedComma
  /-- A comma without a roll before or behind it. -/
  | emptyTerm
  | missingRoll
  | emptyRoll
  | comparisonInArithmetic
  | comparisonAsDieCount
  | comparisonAsRoll
  | expectedNumber
  | conditionNotComparison
  deriving DecidableEq, Repr

def Cause.text : Cause → Text
  | .unterminatedDamageType => "unterminated damage type".toList
  | .unexpectedCharacter => "unexpected character".toList
  | .uncalledFunction => "expected '(' after function".toList
  | .unknownFunction => "unknown function".toList
  | .wrongArgumentCount => "wrong number of arguments".toList
  | .missingOperator => "missing operator".toList
  | .missingOperand => "missing operand".toList
  | .unmatchedClosing => "unmatched ')'".toList
  | .unclosedGroup => "unclosed '('".toList
  | .unexpectedComma => "unexpected ','".toList
  | .emptyTerm => "empty damage term".toList
  | .missingRoll => "missing roll before damage type".toList
  | .emptyRoll => "empty expression".toList
  | .comparisonInArithmetic => "comparison result used in arithmetic".toList
  | .comparisonAsDieCount => "comparison result used as a die count".toList
  | .comparisonAsRoll => "comparison result used as a roll".toList
  | .expectedNumber => "expected a number".toList
  | .conditionNotComparison => "ternary condition must be a comparison".toList

/-- A fault: its cause, the part of the roll at fault, and the byte at which that part begins. -/
structure Fault where
  cause : Cause
  fragment : Text
  offset : Nat
  deriving DecidableEq, Repr

def Fault.message (f : Fault) : Text :=
  f.cause.text ++ " at byte ".toList ++ Text.numeral f.offset ++ " in `".toList ++ f.fragment ++ "`".toList

end RulesText.Roll
