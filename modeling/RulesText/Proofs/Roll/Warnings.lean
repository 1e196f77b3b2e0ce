/-
The records of a roll that is worked out: whatever comes of it, they are warnings about a zero that
was taken as an identity.
-/
import RulesText.Roll.Evaluate

namespace RulesText

/-! ## Runs that only warn -/

/-- Every record of a run is a warning. -/
def Logged.Warns {ε α : Type} (x : Logged ε α) : Prop := ∀ entry ∈ x.journal, entry.level = .warn

namespace Logged.Warns

variable {ε ε' α β : Type} {x : Logged ε α} {f : α → Logged ε β}

theorem pure (a : α) : Warns (Pure.pure a : Logged ε α) := nofun

theorem fail (e : ε) : Warns (Logged.fail e : Logged ε α) := nofun

theorem ofExcept (x : Except ε α) : Warns (Logged.ofExcept x) := nofun

theorem bind (first : Warns x) (second : ∀ a, Warns (f a)) : Warns (x >>= f) := by
  rcases x with ⟨journal, _ | a⟩
  · exact first
  · intro entry mem
    rcases List.mem_append.1 mem with mem | mem
    · exact first entry mem
    · exact second a entry mem

theorem map (h : Warns x) (g : α → β) : Warns (g <$> x) := h

theorem mapError (h : Warns x) (g : ε → ε') : Warns (x.mapError g) := h

end Logged.Warns

namespace Roll

open Logged

/-! ## Expressions -/

theorem Operator.identity_warns (op : Operator) (other : Value) : (op.identity other).Warns := by
  unfold identity
  split
  · intro entry mem
    obtain rfl : entry = .zeroIdentity op other.text := by simpa [note, after] using mem
    rfl
  · exact .pure other

theorem Operator.apply_warns (op : Operator) (left right : Value) :
    (op.apply left right).Warns := by
  unfold apply
  split
  · exact .fail _
  · split
    · exact .pure _
    · split
      · exact op.identity_warns _
      · split
        · exact op.identity_warns _
        · exact .pure _

theorem expectNumber_warns (t : Tree) (v : Value) : (expectNumber t v).Warns := by
  unfold expectNumber
  split
  · exact .pure _
  · exact .fail _

theorem Tree.evaluate_warns (rank : Rank) (t : Tree) : (t.evaluate rank).Warns := by
  induction t with
  | number x => exact .pure _
  | name text => exact .pure _
  | binary op left right ihl ihr =>
    exact ihl.bind fun l => ihr.bind fun r => (op.apply_warns l r).mapError _
  | dice count die ih =>
    refine ih.bind fun v => ?_
    split
    · exact .fail _
    · exact .pure _
  | call f arguments ih =>
    -- An argument that has to be a number, and what is done with it.
    have number {t : Tree} (mem : t ∈ arguments) {next : Float → Logged Fault Value}
        (hnext : ∀ x, (next x).Warns) :
        (do let x ← expectNumber t (← t.evaluate rank); next x).Warns :=
      (ih t mem).bind fun v => (expectNumber_warns t v).bind hnext
    unfold evaluate
    split
    case h_1 h | h_2 h | h_3 h | h_4 h => cases h
    case h_5 t h | h_6 t h =>
      cases h
      exact number (by simp) fun x => .pure _
    case h_7 t u h | h_8 t u h =>
      cases h
      exact number (by simp) fun x => number (by simp) fun y => .pure _
    case h_9 condition yes no h =>
      cases h
      refine (ih condition (by simp)).bind fun v => ?_
      split
      · exact ih yes (by simp)
      · exact ih no (by simp)
      · exact .fail _
    case h_10 => exact .fail _

/-! ## Rolls -/

theorem Term.render_warns (rank : Rank) (term : Term) : (term.render rank).Warns := by
  refine ((term.expression.evaluate_warns rank).mapError _).bind fun v => ?_
  split
  · exact .fail _
  · exact .pure _

theorem renderTerms_warns (rank : Rank) (terms : List Term) : (renderTerms rank terms).Warns := by
  induction terms with
  | nil => exact .pure _
  | cons term terms ih => exact (term.render_warns rank).bind fun text => ih.map _

theorem evaluate_warns (rank : Rank) (roll : Text) : (evaluate rank roll).Warns :=
  (Warns.ofExcept _).bind fun terms => (renderTerms_warns rank terms).map _

end Roll

end RulesText
