/-
Doubles made whole: floor, ceiling, the nearest whole number, and the numeral in which the result of
a roll is written.
-/
import RulesText.Number.Decimal

namespace RulesText.Number

/-- The magnitude `mantissa · 2 ^ exponent` made whole. -/
def whole (d : Direction) (mantissa : Nat) (exponent : Int) : Nat :=
  d.divide (mantissa * power 2 exponent) (power 2 (-exponent))

/-- A double made whole, with its sign kept also on zero; `d` chooses the direction by the sign. -/
def wholeDouble (d : Bool → Direction) (x : Float) : Float :=
  match form x with
  | .finite negative mantissa exponent =>
    signed negative (nearest (whole (d negative) mantissa exponent) 1)
  | _ => x

def floor (x : Float) : Float := wholeDouble (fun negative => if negative then .up else .down) x

def ceil (x : Float) : Float := wholeDouble (fun negative => if negative then .down else .up) x

/-- The larger of two doubles. No number loses against any other double, and of two equal ones the
first is taken. -/
def larger (x y : Float) : Float :=
  if x.isNaN then y else if x < y then y else x

/-- The whole number nearest to `x`; a half goes to the even neighbour. -/
def round (x : Float) : Float := wholeDouble (fun _ => .halfEven) x

/-- The numeral of a double made whole; zero has no sign. -/
def wholeText (x : Float) : Text := exactText (if round x == 0 then 0 else round x)

end RulesText.Number
