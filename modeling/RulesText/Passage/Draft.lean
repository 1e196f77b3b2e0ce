/-
Drafts: a text as it is put together from pieces, the newest of which can still be replaced.
-/
import RulesText.Text.Basic

namespace RulesText

/-- The pieces of a text, newest first. -/
structure Draft where
  pieces : List Text := []
  deriving DecidableEq, Repr

namespace Draft

def add (d : Draft) (piece : Text) : Draft := ⟨piece :: d.pieces⟩

/-- A draft with another text in place of its newest piece. -/
def replace (d : Draft) (piece : Text) : Draft := ⟨piece :: d.pieces.tail⟩

def text (d : Draft) : Text := d.pieces.reverse.flatten

@[simp] theorem text_empty : text {} = [] := rfl

@[simp] theorem text_add (d : Draft) (piece : Text) : (d.add piece).text = d.text ++ piece := by
  simp [text, add]

/-- Replacing the piece that was added last leaves no trace of it. -/
@[simp] theorem replace_add (d : Draft) (old new : Text) : (d.add old).replace new = d.add new := rfl

end Draft

end RulesText
