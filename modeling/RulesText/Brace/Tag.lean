/-
Brace tags: a name in `{@...}` with arguments behind a blank, and the words that such a tag stands
for. Arguments hold no brace, so a tag that is read is an innermost one, and its words hold no
brace either.
-/
import RulesText.Brace.Attack

namespace RulesText

/-- A brace tag: its name, and all that stands between the name and the closing brace. -/
structure BraceTag where
  name : Text
  tail : Text
  deriving DecidableEq, Repr

namespace BraceTag

def source (t : BraceTag) : Text := '{' :: '@' :: t.name ++ t.tail ++ ['}']

/-- The arguments of a tag, without the blanks around them. -/
def arguments (t : BraceTag) : Text := Text.trim t.tail

def isBrace (c : Char) : Bool := c = '{' || c = '}'

/-! ## Reading -/

/-- Splits what follows the name of a tag into the rest of the tag and what follows the tag. -/
def tail? : Text → Option (Text × Text)
  | [] => none
  | c :: r =>
    if c = '}' then some ([], r)
    else if Text.isBlank c then
      match (c :: r).dropWhile (!isBrace ·) with
      | '}' :: rest => some ((c :: r).takeWhile (!isBrace ·), rest)
      | _ => none
    else none

/-- The tag at the start of a text, and what follows it. -/
def read? : Text → Option (BraceTag × Text)
  | '{' :: '@' :: r =>
    if (r.takeWhile Char.isAlpha).isEmpty then none
    else (tail? (r.dropWhile Char.isAlpha)).map fun (tail, rest) =>
      (⟨r.takeWhile Char.isAlpha, tail⟩, rest)
  | _ => none

theorem eq_of_tail? {t tail rest : Text} (h : tail? t = some (tail, rest)) :
    t = tail ++ '}' :: rest := by
  unfold tail? at h
  split at h
  · cases h
  · split at h
    · rename_i hc
      cases h
      rw [hc]; rfl
    · split at h
      · split at h
        · rename_i hrest
          cases h
          rw [← hrest, List.takeWhile_append_dropWhile]
        · cases h
      · cases h

theorem eq_of_read? {t rest : Text} {tag : BraceTag} (h : read? t = some (tag, rest)) :
    t = tag.source ++ rest := by
  unfold read? at h
  split at h
  · rename_i r
    split at h
    · cases h
    · obtain ⟨⟨tail, rest'⟩, htail, htag⟩ := Option.map_eq_some_iff.1 h
      cases htag
      have split := List.takeWhile_append_dropWhile (p := Char.isAlpha) (l := r)
      rw [eq_of_tail? htail] at split
      simp only [source, List.cons_append, List.append_assoc, List.nil_append, split]
  · cases h

/-! ## Rendering -/

inductive Use
  | attack
  | onHit
  | hitBonus
  | difficulty
  | recharge
  | spellAttack
  | chance
  | dice
  | table
  /-- A link to another record, which may carry words of its own in its third field. -/
  | link
  /-- Any other tag, which stands for its first field. -/
  | label
  deriving DecidableEq, Repr

def uses : List (Text × Use) :=
  [("atk".toList, .attack), ("h".toList, .onHit), ("hit".toList, .hitBonus),
    ("dc".toList, .difficulty), ("recharge".toList, .recharge),
    ("hitYourSpellAttack".toList, .spellAttack), ("chance".toList, .chance),
    ("dice".toList, .dice), ("table".toList, .table), ("creature".toList, .link),
    ("item".toList, .link), ("spell".toList, .link), ("race".toList, .link)]

def use (t : BraceTag) : Use := ((uses.find? (·.1 = t.name)).map (·.2)).getD .label

/-- The words for a use with given arguments, whose fields are separated by bars. -/
def renderUse (u : Use) (arguments : Text) : Except Gap Text :=
  let fields := Text.fields '|' arguments
  let field (i : Nat) : Text := fields[i]?.getD []
  match u with
  | .attack => Attack.render arguments
  | .onHit => .ok "On hit: ".toList
  | .hitBonus => .ok ('+' :: arguments)
  | .difficulty => .ok ("DC ".toList ++ arguments)
  | .recharge =>
    .ok (if arguments.isEmpty then "(recharge on 6)".toList
      else "(recharge ".toList ++ arguments ++ "-6)".toList)
  | .spellAttack => .ok "your spell attack modifier".toList
  | .chance =>
    .ok (match fields.length with
      | 2 => field 1
      | 1 => field 0
      | _ => field 0 ++ ['%'])
  | .dice =>
    .ok (if (field 1).isEmpty then field 0 else field 0 ++ " (".toList ++ field 1 ++ [')'])
  | .table => .ok (field 0 ++ " table".toList)
  | .link => .ok (if (field 2).isEmpty then field 0 else field 2)
  | .label => .ok (field 0)

def render (t : BraceTag) : Except Gap Text := renderUse t.use t.arguments

end BraceTag

end RulesText
