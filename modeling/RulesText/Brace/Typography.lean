/-
The text of a brace record before its tags are resolved: dashes, the minus sign and the sign of
multiplication are written in ASCII, and a spell attack that is announced by its code is spelled
out.
-/
import RulesText.Text.Word

namespace RulesText.Brace

def plainChar (c : Char) : Text :=
  if c = '\u2014' ∨ c = '\u2013' then " - ".toList
  else if c = '\u2212' then ['-']
  else if c = '\u00d7' then ['x']
  else [c]

def plain (t : Text) : Text := t.flatMap plainChar

/-- What follows the first letter of an announced spell attack. -/
def announcementTail : Text := "s {@hitYourSpellAttack}".toList

/-- The words for the spell attack announced at the start of a text, and what follows it. -/
def announcement? : Text → Option (Text × Text)
  | [] => none
  | c :: r =>
    if announcementTail.isPrefixOf r then
      if c = 'm' then
        some ("Melee spell attack: your spell attack modifier".toList, r.drop announcementTail.length)
      else if c = 'r' then
        some ("Ranged spell attack: your spell attack modifier".toList, r.drop announcementTail.length)
      else none
    else none

theorem length_lt_of_announcement? {t words rest : Text}
    (h : announcement? t = some (words, rest)) : rest.length < t.length := by
  unfold announcement? at h
  repeat' split at h
  all_goals cases h
  all_goals simp only [List.length_drop, List.length_cons]; omega

/-- Spells out the announced spell attacks of a text, where the announcement starts a word. The
text follows `last`, and `seen` was written before, newest first. -/
def announceFrom (last : Option Char) (seen : Text) : Text → Text
  | [] => seen.reverse
  | c :: r =>
    match h : announcement? (c :: r) with
    | none => announceFrom (some c) (c :: seen) r
    | some (words, rest) =>
      have := length_lt_of_announcement? h
      if last.any Text.isWord then announceFrom (some c) (c :: seen) r
      else announceFrom (some '}') (words.reverseAux seen) rest
termination_by t => t.length
decreasing_by all_goals simp only [List.length_cons] at *; omega

def announce (t : Text) : Text := announceFrom none [] t

/-- The text in which the tags of a record are resolved. -/
def normalise (t : Text) : Text := announce (plain t)

end RulesText.Brace
