/-
Checks: flat checks, saving throws and skill checks, with the class of difficulty that they have to
meet.
-/
import RulesText.Tag.Fault
import RulesText.Tag.Parameters

namespace RulesText

inductive Save
  | fortitude
  | reflex
  | will
  deriving DecidableEq, Repr

inductive Skill
  | acrobatics
  | arcana
  | athletics
  | crafting
  | deception
  | diplomacy
  | intimidation
  | medicine
  | nature
  | occultism
  | perception
  | performance
  | religion
  | society
  | stealth
  | survival
  | thievery
  deriving DecidableEq, Repr

/-- What is rolled for a check. -/
inductive Check
  | flat
  | save (save : Save)
  | skill (skill : Skill)
  deriving DecidableEq, Repr

def Save.name : Save → Text
  | .fortitude => "Fortitude".toList
  | .reflex => "Reflex".toList
  | .will => "Will".toList

def Skill.name : Skill → Text
  | .acrobatics => "Acrobatics".toList
  | .arcana => "Arcana".toList
  | .athletics => "Athletics".toList
  | .crafting => "Crafting".toList
  | .deception => "Deception".toList
  | .diplomacy => "Diplomacy".toList
  | .intimidation => "Intimidation".toList
  | .medicine => "Medicine".toList
  | .nature => "Nature".toList
  | .occultism => "Occultism".toList
  | .perception => "Perception".toList
  | .performance => "Performance".toList
  | .religion => "Religion".toList
  | .society => "Society".toList
  | .stealth => "Stealth".toList
  | .survival => "Survival".toList
  | .thievery => "Thievery".toList

namespace Check

/-- Every check, in the order in which flags are looked for. -/
def all : List Check :=
  [.flat, .save .fortitude, .save .reflex, .save .will] ++
    [.acrobatics, .arcana, .athletics, .crafting, .deception, .diplomacy, .intimidation, .medicine,
      .nature, .occultism, .perception, .performance, .religion, .society, .stealth, .survival,
      .thievery].map .skill

/-- The key that selects a check: its name in lower case. -/
def key : Check → Text
  | .flat => "flat".toList
  | .save s => s.name.map Char.toLower
  | .skill s => s.name.map Char.toLower

def label : Check → Text
  | .flat => "flat check".toList
  | .save s => s.name ++ " save".toList
  | .skill s => s.name ++ " check".toList

def ofKey? (t : Text) : Option Check := all.find? (·.key = t)

/-- The check that parameters describe. A flag wins over an explicit type. -/
def ofParameters? (p : Parameters) : Option Check :=
  (all.find? fun check => p.contains check.key).or ((p.get? "type".toList).bind ofKey?)

/-- The words for the check that the body of a tag describes. -/
def render (body : Text) : Except Gap Text :=
  let p := Parameters.parse body
  match ofParameters? p with
  | none => .error .noCheckKind
  | some check =>
    match p.get? "dc".toList with
    | none => .ok check.label
    | some dc => .ok ("DC ".toList ++ dc ++ ' ' :: check.label)

end Check

end RulesText
