/-
The tokens of a damage roll. A token's text is a function of the token, so reading is stated as
taking that text off the front: `next_text` says that nothing else is taken.
-/
import RulesText.Roll.Operator
import RulesText.Roll.Fault

namespace RulesText.Roll

/-- What a token says. -/
inductive Lexeme
  /-- A run of letters, digits, `@` and `.`. -/
  | atom (text : Text)
  | operator (op : Operator)
  | opening
  | closing
  | comma
  /-- The text between `[` and `]`, the damage type of the roll before it. -/
  | damageType (text : Text)
  deriving DecidableEq, Repr

def Lexeme.text : Lexeme → Text
  | .atom text => text
  | .operator op => [op.sign]
  | .opening => ['(']
  | .closing => [')']
  | .comma => [',']
  | .damageType text => '[' :: text ++ [']']

/-- A token and the byte at which it begins. -/
structure Token where
  lexeme : Lexeme
  offset : Nat
  deriving DecidableEq, Repr

namespace Token

def text (t : Token) : Text := t.lexeme.text

/-- The byte behind a token. -/
def stop (t : Token) : Nat := t.offset + t.text.width

/-- A fault with the token as its fragment. -/
def fault (t : Token) (cause : Cause) : Fault := ⟨cause, t.text, t.offset⟩

/-! ## Scanning -/

def isAtomChar (c : Char) : Bool := c.isAlphanum || c = '@' || c = '.'

/-- The lexeme at the start of `c :: r`, which begins at `offset`, and what follows it. -/
def next (offset : Nat) (c : Char) (r : Text) : Except Fault (Lexeme × Text) :=
  if c = '[' then
    match r.dropWhile (· != ']') with
    | [] => .error ⟨.unterminatedDamageType, c :: r, offset⟩
    | _ :: rest => .ok (.damageType (r.takeWhile (· != ']')), rest)
  else if c = '(' then .ok (.opening, r)
  else if c = ')' then .ok (.closing, r)
  else if c = ',' then .ok (.comma, r)
  else if isAtomChar c then .ok (.atom (c :: r.takeWhile isAtomChar), r.dropWhile isAtomChar)
  else
    match Operator.ofSign? c with
    | some op => .ok (.operator op, r)
    | none => .error ⟨.unexpectedCharacter, [c], offset⟩

theorem dropWhile_ne_cons {c d : Char} {r rest : Text} (h : r.dropWhile (· != c) = d :: rest) :
    d = c := by
  have := List.head?_dropWhile_not (· != c) r
  rw [h] at this
  simpa using this

/-- A lexeme and what follows it are together the text that was read. -/
theorem next_text {offset : Nat} {c : Char} {r rest : Text} {l : Lexeme}
    (h : next offset c r = .ok (l, rest)) : c :: r = l.text ++ rest := by
  unfold next at h
  split at h
  · rename_i hc
    split at h
    · cases h
    · rename_i d tail hd
      cases h
      have split := List.takeWhile_append_dropWhile (p := (· != ']')) (l := r)
      rw [hd, dropWhile_ne_cons hd] at split
      simp [Lexeme.text, hc, split]
  · split at h
    · rename_i hc; cases h; simp [Lexeme.text, hc]
    · split at h
      · rename_i hc; cases h; simp [Lexeme.text, hc]
      · split at h
        · rename_i hc; cases h; simp [Lexeme.text, hc]
        · split at h
          · cases h
            simp [Lexeme.text]
          · split at h
            · rename_i op hop
              cases h
              simp [Lexeme.text, Operator.sign_of_ofSign? hop]
            · cases h

theorem text_ne_nil_of_next {offset : Nat} {c : Char} {r rest : Text} {l : Lexeme}
    (h : next offset c r = .ok (l, rest)) : l.text ≠ [] := by
  unfold next at h
  repeat' split at h
  all_goals cases h <;> simp [Lexeme.text]

theorem length_lt_of_next {offset : Nat} {c : Char} {r rest : Text} {l : Lexeme}
    (h : next offset c r = .ok (l, rest)) : rest.length < r.length + 1 := by
  have len := congrArg List.length (next_text h)
  have pos := List.length_pos_iff.2 (text_ne_nil_of_next h)
  simp only [List.length_cons, List.length_append] at len
  omega

/-- The tokens of a text that begins at `offset`, behind the tokens `seen` so far, newest first. -/
def scanFrom (offset : Nat) (seen : List Token) : Text → Except Fault (List Token)
  | [] => .ok seen.reverse
  | c :: r =>
    if Text.isLayout c then scanFrom (offset + 1) seen r
    else
      match h : next offset c r with
      | .error fault => .error fault
      | .ok (lexeme, rest) =>
        have := length_lt_of_next h
        scanFrom (offset + lexeme.text.width) (⟨lexeme, offset⟩ :: seen) rest
termination_by t => t.length

/-- The tokens of a roll, or the first place where no token can be read. -/
def scan (t : Text) : Except Fault (List Token) := scanFrom 0 [] t

end Token

end RulesText.Roll
