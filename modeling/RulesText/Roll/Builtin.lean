/-
The functions that a damage roll can call.
-/
import RulesText.Text.Basic

namespace RulesText.Roll

/-- A function that a roll can call. -/
inductive Builtin
  | ceil
  | floor
  /-- Picks its second argument if its first holds, else its third. -/
  | ternary
  /-- Whether its first argument is at least its second. -/
  | gte
  | max
  deriving DecidableEq, Repr

namespace Builtin

def all : List Builtin := [.ceil, .floor, .ternary, .gte, .max]

def name : Builtin → Text
  | .ceil => "ceil".toList
  | .floor => "floor".toList
  | .ternary => "ternary".toList
  | .gte => "gte".toList
  | .max => "max".toList

def arity : Builtin → Nat
  | .ceil | .floor => 1
  | .gte | .max => 2
  | .ternary => 3

def ofName? (t : Text) : Option Builtin := all.find? (·.name = t)

theorem ofName?_name (f : Builtin) : ofName? f.name = some f := by cases f <;> decide

theorem name_of_ofName? {t : Text} {f : Builtin} (h : ofName? t = some f) : f.name = t := by
  simpa using List.find?_some h

end Builtin

end RulesText.Roll
