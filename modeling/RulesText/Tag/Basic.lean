/-
Closed tags, and the words that a tag stands for.
-/
import RulesText.Roll.Evaluate
import RulesText.Tag.Check
import RulesText.Tag.Template

namespace RulesText

/-- A closed tag: its name, and its body in which no tag is left to expand. -/
structure Tag where
  name : Text
  body : Text
  deriving DecidableEq, Repr

namespace Tag

/-- The family of a tag, if its name is known. -/
def family? (t : Tag) : Option Family := Family.ofName? t.name

/-- The readable name in a link is what follows its last point. -/
def linkName (body : Text) : Except Gap Text :=
  let name := (body.reverse.takeWhile (· != '.')).reverse
  if name.isEmpty then .error .emptyIdentifier else .ok name

/-- The part of a damage tag that is a roll; options behind the first bar change nothing. -/
def roll (body : Text) : Text := body.takeWhile (· != '|')

/-- The words that a tag stands for. -/
def render (rank : Rank) (t : Tag) : Logged TagFault Text :=
  match t.family? with
  | none => Logged.fail (.unknownName t.name)
  | some .uuid => Logged.ofExcept ((linkName t.body).mapError .unusable)
  | some .damage => (Roll.evaluate rank (roll t.body)).mapError .badRoll
  | some .check => Logged.ofExcept ((Check.render t.body).mapError .unusable)
  | some .template => Logged.ofExcept ((Template.render t.body).mapError .unusable)

end Tag

end RulesText
