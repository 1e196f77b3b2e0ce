/-
Why a tag cannot be rendered, and failures of a whole text: a tag that is never closed, or a fault
together with the tag it lies in and the byte at which that tag begins.
-/
import RulesText.Roll.Fault
import RulesText.Tag.Family

namespace RulesText

/-! ## A single tag -/

/-- What a tag of a known family lacks. -/
inductive Gap
  | emptyIdentifier
  | noCheckKind
  | noShape
  | noDistance
  | unknownAttackCode
  | noAttackCode
  deriving DecidableEq, Repr

namespace Gap

def family : Gap → Text
  | .emptyIdentifier => Family.uuid.name
  | .noCheckKind => Family.check.name
  | .noShape | .noDistance => Family.template.name
  | .unknownAttackCode | .noAttackCode => "atk".toList

def reason : Gap → Text
  | .emptyIdentifier => "has an empty identifier".toList
  | .noCheckKind => "has no recognised check kind".toList
  | .noShape => "has no template shape".toList
  | .noDistance => "has no distance".toList
  | .unknownAttackCode => "has an unknown attack code".toList
  | .noAttackCode => "has no attack code".toList

end Gap

/-- Why a tag cannot be rendered. -/
inductive TagFault
  | unknownName (name : Text)
  | unusable (gap : Gap)
  | badRoll (fault : Roll.Fault)
  deriving DecidableEq, Repr

def TagFault.message : TagFault → Text
  | .unknownName name => "unknown tag `".toList ++ name ++ "`".toList
  | .unusable gap => gap.family ++ " tag ".toList ++ gap.reason
  | .badRoll fault => fault.message

/-! ## A whole text -/

inductive Part
  | tag
  | replacement
  deriving DecidableEq, Repr

def Part.unclosed : Part → Text
  | .tag => "unterminated tag".toList
  | .replacement => "unterminated override".toList

/-- Why a text cannot be expanded, located in that text. -/
inductive Failure
  /-- A part opened at `offset` is never closed. -/
  | unclosed (part : Part) (offset : Nat)
  /-- The tag with text `source` at `offset` cannot be rendered. -/
  | unrendered (fault : TagFault) (source : Text) (offset : Nat)
  deriving DecidableEq, Repr

namespace Failure

def offset : Failure → Nat
  | .unclosed _ offset => offset
  | .unrendered _ _ offset => offset

/-- The text of the tag at fault, if it was closed. -/
def source? : Failure → Option Text
  | .unclosed .. => none
  | .unrendered _ source _ => some source

def message : Failure → Text
  | .unclosed part offset =>
    "malformed tag at byte ".toList ++ Text.numeral offset ++ ": ".toList ++ part.unclosed
  | .unrendered (.unknownName _) source offset =>
    "unknown tag `".toList ++ source ++ "` at byte ".toList ++ Text.numeral offset
  | .unrendered (.unusable gap) source offset =>
    "unsupported ".toList ++ gap.family ++ " tag `".toList ++ source ++ "` at byte ".toList ++
      Text.numeral offset ++ ": ".toList ++ gap.reason
  | .unrendered (.badRoll fault) source offset =>
    "invalid expression in tag `".toList ++ source ++ "` at byte ".toList ++
      Text.numeral offset ++ ": ".toList ++ fault.message

end Failure

end RulesText
