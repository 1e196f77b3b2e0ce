/-
The rank of a caster, and how it is read from and written to structured data.
-/
import RulesText.Number.Nearest
import RulesText.Text.Basic

namespace RulesText

/-- The rank of the spell or feature whose text is read; 0 where none applies. -/
structure Rank where
  level : Int32 := 0
  deriving DecidableEq, Repr, Inhabited

/-- Structured data as a record of settings holds it. -/
inductive Datum
  | nothing
  | truth (value : Bool)
  | integer (value : Int)
  | fractional
  | text (value : Text)
  | list (items : List Datum)
  | record (fields : List (Text × Datum))
  deriving Inhabited

namespace Rank

def number (r : Rank) : Float :=
  Number.signed (r.level.toInt < 0) (Number.nearest r.level.toInt.natAbs 1)

/-- The rank of a level, if it has 32 bits. -/
def ofInt? (n : Int) : Option Rank :=
  if Int32.minValue.toInt ≤ n ∧ n ≤ Int32.maxValue.toInt then some ⟨Int32.ofInt n⟩ else none

/-- The rank that one datum denotes: whole numbers only. -/
def ofLevel? : Datum → Option Rank
  | .integer n => ofInt? n
  | _ => none

/-- A rank is a record with a field `rank`, whatever other fields it has, or a list of one level. -/
def ofDatum? : Datum → Option Rank
  | .record fields => (fields.find? (·.1 = "rank".toList)).bind (ofLevel? ·.2)
  | .list [level] => ofLevel? level
  | _ => none

def toDatum (r : Rank) : Datum := .record [("rank".toList, .integer r.level.toInt)]

end Rank

end RulesText
