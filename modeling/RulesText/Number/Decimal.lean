/-
Decimal numerals of doubles. Reading rounds to the nearest double; writing takes the coarsest
decimal grid that has a point which reads back as the double, so it uses the fewest digits.
-/
import RulesText.Number.Nearest
import RulesText.Text.Basic

namespace RulesText.Number

/-- The number `coefficient · 10 ^ exponent`. -/
structure Decimal where
  coefficient : Nat
  exponent : Int
  deriving DecidableEq, Repr

namespace Decimal

def toFloat (d : Decimal) : Float :=
  nearest (d.coefficient * power 10 d.exponent) (power 10 (-d.exponent))

/-! ## Reading -/

def digitsValue (t : Text) : Nat := t.foldl (fun n c => 10 * n + (c.toNat - '0'.toNat)) 0

/-- A literal is a row of digits with at most one point, which may stand at either end; at least
one digit is there. -/
def ofLiteral? (t : Text) : Option Decimal :=
  let integral := t.takeWhile (· != '.')
  let fraction := (t.dropWhile (· != '.')).drop 1
  if t.any Char.isDigit && integral.all Char.isDigit && fraction.all Char.isDigit then
    some ⟨digitsValue (integral ++ fraction), -fraction.length⟩
  else none

/-! ## The fewest digits that read back -/

/-- `mantissa · 2 ^ exponent` as a decimal, every digit of it. -/
def exact (mantissa : Nat) (exponent : Int) : Decimal :=
  ⟨mantissa * power 2 exponent * power 5 (-exponent), min exponent 0⟩

/-- Looks on the grid of multiples of `10 ^ (bottom + steps)`, then on each finer one, for a
neighbour of `mantissa · 2 ^ exponent` that reads back as `x`. Of two such neighbours the nearer
one is taken, and the larger one if both are equally near. The last grid has the number itself. -/
def coarsest (x : Float) (mantissa : Nat) (exponent bottom : Int) : Nat → Decimal
  | 0 => exact mantissa exponent
  | steps + 1 =>
    let place := bottom + (steps + 1 : Nat)
    let num := mantissa * power 2 exponent * power 10 (-place)
    let den := power 2 (-exponent) * power 10 place
    let low : Decimal := ⟨num / den, place⟩
    let high : Decimal := ⟨num / den + 1, place⟩
    if low.toFloat.toBits = x.toBits then
      if high.toFloat.toBits = x.toBits && den ≤ 2 * (num % den) then high else low
    else if high.toFloat.toBits = x.toBits then high
    else coarsest x mantissa exponent bottom steps

/-- The decimal with the fewest digits that reads back as the positive double
`x = mantissa · 2 ^ exponent`. The search starts at a power of ten above `x`. -/
def shortest (x : Float) (mantissa : Nat) (exponent : Int) : Decimal :=
  let bottom := min exponent 0
  let top := (mantissa.log2 + 1 + exponent) * 3 / 10 + 3
  coarsest x mantissa exponent bottom (top - bottom).toNat

/-! ## Positional notation -/

/-- A decimal written out in full, without an exponent. -/
def text (d : Decimal) : Text :=
  let digits := Text.numeral d.coefficient
  if 0 ≤ d.exponent then
    digits ++ List.replicate d.exponent.toNat '0'
  else
    let places := (-d.exponent).toNat
    let padded := List.replicate (places + 1 - digits.length) '0' ++ digits
    padded.take (padded.length - places) ++ '.' :: padded.drop (padded.length - places)

end Decimal

/-- The shortest numeral that reads back as a double; zero keeps its sign. -/
def exactText (x : Float) : Text :=
  match form x with
  | .notNumber => "NaN".toList
  | .infinite negative => if negative then "-inf".toList else "inf".toList
  | .finite negative mantissa exponent =>
    let magnitude :=
      if mantissa = 0 then ['0'] else
        (Decimal.shortest (signed negative x) mantissa exponent).text
    if negative then '-' :: magnitude else magnitude

end RulesText.Number
