/-
The families of inline tags.
-/
import RulesText.Text.Basic

namespace RulesText

/-- A family of tags, by what its tags describe. -/
inductive Family
  | uuid
  | damage
  | check
  | template
  deriving DecidableEq, Repr

namespace Family

def all : List Family := [.uuid, .damage, .check, .template]

def name : Family → Text
  | .uuid => "UUID".toList
  | .damage => "Damage".toList
  | .check => "Check".toList
  | .template => "Template".toList

/-- The family whose tags bear a given name; upper and lower case differ. -/
def ofName? (t : Text) : Option Family := all.find? (·.name = t)

theorem ofName?_name (f : Family) : ofName? f.name = some f := by cases f <;> decide

theorem name_of_ofName? {t : Text} {f : Family} (h : ofName? t = some f) : f.name = t := by
  simpa using List.find?_some h

end Family

end RulesText
