/-
What the tokens of a text say, wherever they stand. `lexemes` is what the reading of a roll depends
on besides positions; it is worked out from the front of a text, one blank or one lexeme at a time.
-/
import RulesText.Proofs.Roll.Scanning

namespace RulesText.Roll.Token

/-- What the tokens of a text say; none if there is a place where no token can be read. -/
def lexemes (t : Text) : Option (List Lexeme) := (scan t).toOption.map (·.map (·.lexeme))

theorem lexemes_eq_some_iff {t : Text} {w : List Lexeme} :
    lexemes t = some w ↔ ∃ tokens, scan t = .ok tokens ∧ tokens.map (·.lexeme) = w := by
  cases h : scan t <;> simp [lexemes, h, Except.toOption]

/-! ## Positions -/

/-- The position of a lexeme matters only for the fault if there is none. -/
theorem next_toOption (offset place : Nat) (c : Char) (r : Text) :
    (next offset c r).toOption = (next place c r).toOption := by
  unfold next
  repeat' split
  all_goals rfl

theorem next_ok_anywhere {offset : Nat} {c : Char} {r rest : Text} {l : Lexeme}
    (h : next offset c r = .ok (l, rest)) (place : Nat) : next place c r = .ok (l, rest) := by
  have same := next_toOption place offset c r
  rw [h] at same
  cases e : next place c r <;> rw [e] at same <;> cases same
  rfl

theorem next_error_anywhere {offset : Nat} {c : Char} {r : Text} {fault : Fault}
    (h : next offset c r = .error fault) (place : Nat) : ∃ fault, next place c r = .error fault := by
  have same := next_toOption place offset c r
  rw [h] at same
  cases e : next place c r <;> rw [e] at same <;> cases same
  exact ⟨_, rfl⟩

/-- Neither the position of a text nor the tokens before it change its lexemes. -/
theorem scanFrom_lexemes (t : Text) (offset : Nat) (seen : List Token) :
    (scanFrom offset seen t).toOption.map (·.map (·.lexeme)) =
      (lexemes t).map ((seen.map (·.lexeme)).reverse ++ ·) := by
  -- The induction is on the length, since a lexeme takes any number of characters.
  induction n : t.length using Nat.strongRecOn generalizing t offset seen with
  | ind n ih =>
    subst n
    cases t with
    | nil => simp [lexemes, scan, scanFrom, Except.toOption]
    | cons c r =>
      cases hc : Text.isLayout c with
      | true =>
        have behind := ih r.length (Nat.lt_succ_self _) r
        rw [lexemes, scan, scanFrom_layout hc, scanFrom_layout hc, behind _ _ rfl, behind _ _ rfl]
        simp
      | false =>
        cases h : next offset c r with
        | error fault =>
          obtain ⟨_, h'⟩ := next_error_anywhere h 0
          rw [lexemes, scan, scanFrom_fault hc h, scanFrom_fault hc h']
          rfl
        | ok p =>
          have behind := ih _ (length_lt_of_next h) p.2
          rw [lexemes, scan, scanFrom_next hc h, scanFrom_next hc (next_ok_anywhere h 0),
            behind _ _ rfl, behind _ _ rfl]
          simp [Function.comp_def]

/-! ## From the front -/

theorem lexemes_nil : lexemes [] = some [] := by simp [lexemes, scan, scanFrom, Except.toOption]

theorem lexemes_layout {c : Char} (h : Text.isLayout c = true) (r : Text) :
    lexemes (c :: r) = lexemes r := by
  rw [lexemes, scan, scanFrom_layout h, scanFrom_lexemes]
  simp

/-- The lexemes of a piece come before those of what follows it. -/
theorem Scans.lexemes {t rest : Text} {ts : List Token} (h : Scans 0 t ts rest) :
    lexemes (t ++ rest) = (lexemes rest).map (ts.map (·.lexeme) ++ ·) := by
  rw [Token.lexemes, Token.scan, h [], scanFrom_lexemes]
  simp

theorem lexemes_next {c : Char} {r rest : Text} {l : Lexeme} (hc : Text.isLayout c = false)
    (h : next 0 c r = .ok (l, rest)) : lexemes (c :: r) = (lexemes rest).map (l :: ·) := by
  rw [lexemes, scan, scanFrom_next hc h, scanFrom_lexemes]
  rfl

theorem lexemes_fault {c : Char} {r : Text} {fault : Fault} (hc : Text.isLayout c = false)
    (h : next 0 c r = .error fault) : lexemes (c :: r) = none := by
  rw [lexemes, scan, scanFrom_fault hc h]
  rfl

theorem lexemes_atom {a rest : Text} (h : IsAtom a) (ends : EndsAtom rest) :
    lexemes (a ++ rest) = (lexemes rest).map (.atom a :: ·) :=
  (scans_atom 0 h ends).lexemes

end RulesText.Roll.Token
