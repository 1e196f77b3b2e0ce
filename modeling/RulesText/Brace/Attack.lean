/-
Attacks: how far they reach and what they are made with, read from a list of codes. The codes are a
set in the order in which they are first mentioned.
-/
import RulesText.Tag.Fault
import RulesText.Text.Blank

namespace RulesText

inductive Reach
  | melee
  | ranged
  deriving DecidableEq, Repr

inductive Means
  | weapon
  | spell
  deriving DecidableEq, Repr

/-- An attack, as one code describes it. -/
structure Attack where
  reach : Reach
  means : Means
  deriving DecidableEq, Repr

def Reach.word : Reach → Text
  | .melee => "melee".toList
  | .ranged => "ranged".toList

def Means.word : Means → Text
  | .weapon => "weapon".toList
  | .spell => "spell".toList

namespace Attack

/-- Every attack with its code. -/
def codes : List (Text × Attack) :=
  [("mw".toList, ⟨.melee, .weapon⟩), ("rw".toList, ⟨.ranged, .weapon⟩),
    ("ms".toList, ⟨.melee, .spell⟩), ("rs".toList, ⟨.ranged, .spell⟩)]

def ofCode? (code : Text) : Option Attack := (codes.find? (·.1 = code)).map (·.2)

/-- The codes in a list with commas; blanks around them and empty places do not count. -/
def listed (t : Text) : List Text :=
  ((Text.fields ',' t).map Text.trim).filter (!·.isEmpty)

def ofCodes : List Text → Except Gap (List Attack)
  | [] => .ok []
  | code :: rest =>
    match ofCode? code with
    | none => .error .unknownAttackCode
    | some attack => (ofCodes rest).map (attack :: ·)

/-- The words for some attacks. What they are made with is said once if it is the same for all. -/
def phrase (attacks : List Attack) (means : Means) : Text :=
  if attacks.all (·.means = means) then
    " or ".toList.intercalate (attacks.map (·.reach.word)) ++ ' ' :: means.word
  else
    " or ".toList.intercalate (attacks.map fun a => a.reach.word ++ ' ' :: a.means.word)

def capitalised : Text → Text
  | [] => []
  | c :: r => c.toUpper :: r

/-- The words for the attacks that a list of codes describes. -/
def render (t : Text) : Except Gap Text :=
  match ofCodes (listed t) with
  | .error gap => .error gap
  | .ok attacks =>
    match attacks.eraseDups with
    | [] => .error .noAttackCode
    | first :: rest =>
      .ok (capitalised (phrase (first :: rest) first.means) ++ " attack".toList)

end Attack

end RulesText
