/-
Doubles as exact numbers: the form of a double (sign, mantissa, exponent), quotients made whole,
and the double nearest to a quotient. All arithmetic is on `Nat`, so nothing is lost on the way.
-/
namespace RulesText.Number

/-! ## Powers -/

/-- The power of a base with a whole exponent; a negative exponent counts as zero. -/
def power (base : Nat) (exponent : Int) : Nat := Nat.pow base exponent.toNat

/-! ## Whole quotients -/

/-- How a quotient that is not whole is made whole. -/
inductive Direction
  | down
  | up
  | halfEven
  deriving DecidableEq, Repr

/-- The quotient `num / den` made whole; `halfEven` takes the nearest whole number, and of two
equally near ones the even one. -/
def Direction.divide (d : Direction) (num den : Nat) : Nat :=
  match d with
  | .down => num / den
  | .up => if num % den = 0 then num / den else num / den + 1
  | .halfEven =>
    if 2 * (num % den) < den then num / den
    else if den < 2 * (num % den) then num / den + 1
    else num / den + num / den % 2

/-- A quotient that is whole stays what it is. -/
theorem Direction.divide_mul (d : Direction) (q den : Nat) (h : 0 < den) :
    d.divide (q * den) den = q := by
  cases d <;> simp [Direction.divide, h]

/-! ## The form of a double -/

/-- What a double stands for: `± mantissa · 2 ^ exponent`, an infinity, or no number. -/
inductive Form
  | notNumber
  | infinite (negative : Bool)
  | finite (negative : Bool) (mantissa : Nat) (exponent : Int)
  deriving DecidableEq, Repr

/-- Exponent of the smallest steps between doubles. -/
def leastExponent : Int := -1074

def form (x : Float) : Form :=
  let bits := x.toBits.toNat
  let negative : Bool := power 2 63 ≤ bits
  let biased : Nat := bits / power 2 52 % power 2 11
  let fraction : Nat := bits % power 2 52
  if biased = 2047 then
    if fraction = 0 then .infinite negative else .notNumber
  else if biased = 0 then .finite negative fraction leastExponent
  else .finite negative (power 2 52 + fraction) ((biased : Int) - 1075)

/-! ## The nearest double -/

/-- The exponent at which `num / den` has a mantissa of 53 bits, or the least exponent if that is
larger. -/
def binade (num den : Nat) : Int :=
  let e : Int := (num.log2 : Int) - den.log2 - 52
  max leastExponent (if num * power 2 (-e) < power 2 52 * (den * power 2 e) then e - 1 else e)

/-- The bits of the non-negative double nearest to `num / den`. A mantissa that is rounded up to
the next power of two carries into the exponent field, and whatever passes the largest double is
the infinity. -/
def nearestBits (num den : Nat) : Nat :=
  if num = 0 then 0
  else
    let e := binade num den
    let mantissa := Direction.halfEven.divide (num * power 2 (-e)) (den * power 2 e)
    min (2047 * power 2 52) ((e - leastExponent).toNat * power 2 52 + mantissa)

/-- The double nearest to `num / den`; a tie goes to the even mantissa. -/
def nearest (num den : Nat) : Float := Float.ofBits (nearestBits num den).toUInt64

/-- A double with a minus sign if `negative`. -/
def signed (negative : Bool) (x : Float) : Float := if negative then -x else x

end RulesText.Number
