/-
Templates of area effects: a shape and a distance in feet.
-/
import RulesText.Tag.Fault
import RulesText.Tag.Parameters

namespace RulesText.Template

/-- The shapes that are known as flags, in the order in which they are looked for. -/
def shapes : List Text :=
  ["emanation".toList, "burst".toList, "line".toList, "cone".toList]

/-- The shape that parameters describe. A flag wins over an explicit type, which may be any word. -/
def shape? (p : Parameters) : Option Text :=
  (shapes.find? p.contains).or (p.filled? "type".toList)

/-- The words for the template that the body of a tag describes. -/
def render (body : Text) : Except Gap Text :=
  let p := Parameters.parse body
  match shape? p with
  | none => .error .noShape
  | some shape =>
    match p.filled? "distance".toList with
    | none => .error .noDistance
    | some distance => .ok (distance ++ "-foot ".toList ++ shape)

end RulesText.Template
