/-
The journal of a run: records of what was rendered, what failed and where a zero was taken as an
identity, in the order in which it happened. `Logged` joins a journal to an answer, so that a run
that fails keeps the records written before.
-/
import RulesText.Roll.Operator
import RulesText.Tag.Fault

namespace RulesText

inductive Level
  | warn
  | debug
  | trace
  deriving DecidableEq, Repr

def Level.name : Level → Text
  | .warn => "warn".toList
  | .debug => "debug".toList
  | .trace => "trace".toList

inductive Entry
  /-- A product or quotient had one operand zero, and `other` was taken as the result. -/
  | zeroIdentity (op : Roll.Operator) (other : Text)
  /-- The tag `label` at `offset` was rendered as `text`. -/
  | rendered (label : Text) (offset : Nat) (text : Text)
  /-- The tag with text `source` at `offset` could not be rendered. -/
  | unrendered (source : Text) (offset : Nat) (fault : TagFault)
  deriving DecidableEq, Repr

namespace Entry

def level : Entry → Level
  | .zeroIdentity .. => .warn
  | .rendered .. => .trace
  | .unrendered .. => .debug

def message : Entry → Text
  | .zeroIdentity op other =>
    "treating zero as identity for '".toList ++ op.sign :: "' with operand `".toList ++ other ++ "`".toList
  | .rendered label offset text =>
    "resolved ".toList ++ label ++ " at byte ".toList ++ Text.numeral offset ++ " to `".toList ++
      text ++ "`".toList
  | .unrendered source offset fault =>
    "failed to render `".toList ++ source ++ "` at byte ".toList ++ Text.numeral offset ++
      ": ".toList ++ fault.message

end Entry

/-- The records of a run, oldest first. -/
abbrev Journal := List Entry

/-- An answer, or what prevented it, with the journal of the run. -/
structure Logged (ε α : Type) where
  journal : Journal
  answer : Except ε α

namespace Logged

variable {ε ε' α β : Type}

def fail (e : ε) : Logged ε α := ⟨[], .error e⟩

def note (entry : Entry) : Logged ε Unit := ⟨[entry], .ok ()⟩

def ofExcept (x : Except ε α) : Logged ε α := ⟨[], x⟩

/-- A run with a journal written before it. -/
def after (journal : Journal) (x : Logged ε α) : Logged ε α := ⟨journal ++ x.journal, x.answer⟩

/-- A run and then, if it has an answer, the run that the answer leads to. -/
def andThen (x : Logged ε α) (f : α → Logged ε β) : Logged ε β :=
  match x.answer with
  | .ok a => after x.journal (f a)
  | .error e => ⟨x.journal, .error e⟩

instance : Monad (Logged ε) where
  map f x := ⟨x.journal, x.answer.map f⟩
  pure a := ⟨[], .ok a⟩
  bind := andThen

/-- A run with what prevents its answer said in other terms. -/
def mapError (f : ε → ε') (x : Logged ε α) : Logged ε' α := ⟨x.journal, x.answer.mapError f⟩

/-! ## Laws -/

@[simp] theorem pure_eq (a : α) : (pure a : Logged ε α) = ⟨[], .ok a⟩ := rfl

@[simp] theorem bind_ok (journal : Journal) (a : α) (f : α → Logged ε β) :
    (Logged.mk journal (.ok a) >>= f) = after journal (f a) := rfl

@[simp] theorem bind_error (journal : Journal) (e : ε) (f : α → Logged ε β) :
    (Logged.mk journal (.error e) >>= f) = ⟨journal, .error e⟩ := rfl

@[simp] theorem map_ok (journal : Journal) (a : α) (f : α → β) :
    (f <$> (Logged.mk journal (.ok a) : Logged ε α)) = ⟨journal, .ok (f a)⟩ := rfl

@[simp] theorem map_error (journal : Journal) (e : ε) (f : α → β) :
    (f <$> (Logged.mk journal (.error e) : Logged ε α)) = ⟨journal, .error e⟩ := rfl

@[simp] theorem after_nil (x : Logged ε α) : after [] x = x := rfl

@[simp] theorem after_after (j k : Journal) (x : Logged ε α) :
    after j (after k x) = after (j ++ k) x := by
  simp [after]

/-- Doing something with the answer of a run leaves its journal alone. -/
theorem bind_pure (x : Logged ε α) (f : α → β) : (x >>= fun a => pure (f a)) = f <$> x := by
  rcases x with ⟨j, _ | a⟩ <;> simp [after]

instance : LawfulMonad (Logged ε) :=
  LawfulMonad.mk' _
    (by rintro α ⟨j, _ | a⟩ <;> rfl)
    (fun _ _ => rfl)
    (by
      rintro α β γ ⟨j, _ | a⟩ f g
      · rfl
      · show andThen (after j (f a)) g = after j (andThen (f a) g)
        rcases f a with ⟨k, _ | b⟩ <;> simp [andThen, after])
    (fun _ _ => rfl)
    (fun _ _ => rfl)
    (fun _ _ => rfl)
    (fun f x => bind_pure x f)
    (fun _ _ => rfl)

/-! ## Answers -/

theorem answer_bind (x : Logged ε α) (f : α → Logged ε β) :
    (x >>= f).answer = x.answer >>= fun a => (f a).answer := by
  rcases x with ⟨j, _ | a⟩ <;> rfl

theorem answer_map_ok {x : Logged ε α} {f : α → β} {b : β} :
    (f <$> x).answer = .ok b ↔ ∃ a, x.answer = .ok a ∧ f a = b := by
  rcases x with ⟨j, _ | a⟩ <;> simp

/-- Two runs in a row have an answer if the first has one, and the second for it. -/
theorem answer_bind_ok {x : Logged ε α} {f : α → Logged ε β} {b : β} :
    (x >>= f).answer = .ok b ↔ ∃ a, x.answer = .ok a ∧ (f a).answer = .ok b := by
  rcases x with ⟨j, _ | a⟩ <;> simp [after]

theorem answer_mapError_ok {x : Logged ε α} {f : ε → ε'} {a : α} :
    (x.mapError f).answer = .ok a ↔ x.answer = .ok a := by
  rcases x with ⟨j, _ | a⟩
  · exact ⟨nofun, nofun⟩
  · constructor <;> intro h <;> cases h <;> rfl

theorem answer_map_error {x : Logged ε α} {f : α → β} {e : ε} :
    (f <$> x).answer = .error e ↔ x.answer = .error e := by
  rcases x with ⟨j, _ | a⟩ <;> simp

/-- Two runs in a row fail if the first does, or if it has an answer and the second fails. -/
theorem answer_bind_error {x : Logged ε α} {f : α → Logged ε β} {e : ε} :
    (x >>= f).answer = .error e ↔
      x.answer = .error e ∨ ∃ a, x.answer = .ok a ∧ (f a).answer = .error e := by
  rcases x with ⟨j, _ | a⟩ <;> simp [after]

/-- What follows a run matters only if the run has an answer. -/
theorem bind_congr_ok {x : Logged ε α} {f g : α → Logged ε β}
    (h : ∀ a, x.answer = .ok a → f a = g a) : x >>= f = x >>= g := by
  rcases x with ⟨j, _ | a⟩
  · rfl
  · rw [bind_ok, bind_ok, h a rfl]

end Logged

end RulesText
