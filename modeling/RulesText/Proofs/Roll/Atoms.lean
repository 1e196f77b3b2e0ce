/-
Texts of rolls with their atoms written otherwise. The atoms are found in the text without the
scanner, which then sees the same lexemes with the new atoms in place of the old ones
(`lexemes_mapAtoms`).
-/
import RulesText.Proofs.Roll.Lexemes

namespace RulesText.Roll

/-- A lexeme with the text of an atom changed. -/
def Lexeme.mapAtom (f : Text → Text) : Lexeme → Lexeme
  | .atom a => .atom (f a)
  | l => l

theorem Lexeme.mapAtom_of_ne {f : Text → Text} {l : Lexeme} (h : ∀ a, l ≠ .atom a) :
    l.mapAtom f = l := by
  cases l with
  | atom a => exact absurd rfl (h a)
  | _ => rfl

namespace Token

/-! ## Texts -/

/-- A text with every atom `a` written as `f a`. Damage types stay as they are, and so does
everything behind a `[` that is not closed. -/
def mapAtoms (f : Text → Text) : Text → Text
  | [] => []
  | c :: r =>
    if c = '[' then
      match _ : r.dropWhile (· != ']') with
      | [] => c :: r
      | d :: rest => c :: r.takeWhile (· != ']') ++ d :: mapAtoms f rest
    else if isAtomChar c then f (c :: r.takeWhile isAtomChar) ++ mapAtoms f (r.dropWhile isAtomChar)
    else c :: mapAtoms f r
termination_by t => t.length
decreasing_by
  · rename_i h
    have := (List.dropWhile_sublist (l := r) (· != ']')).length_le
    rw [h, List.length_cons] at this
    rw [List.length_cons]
    omega
  · exact Nat.lt_succ_of_le (List.dropWhile_sublist _).length_le
  · exact Nat.lt_succ_self _

variable {f : Text → Text}

theorem endsAtom_dropWhile (r : Text) : EndsAtom (r.dropWhile isAtomChar) := by
  cases h : r.dropWhile isAtomChar with
  | nil => exact endsAtom_nil
  | cons c rest =>
    have := List.head?_dropWhile_not isAtomChar r
    rw [h] at this
    exact endsAtom_cons (by simpa using this) rest

/-- An atom still ends where it did if those behind it are written otherwise. -/
theorem EndsAtom.mapAtoms {t : Text} (h : EndsAtom t) : EndsAtom (mapAtoms f t) := by
  cases t with
  | nil => simp [Token.mapAtoms, endsAtom_nil]
  | cons c r =>
    cases hc : isAtomChar c with
    | true => simp [EndsAtom, hc] at h
    | false =>
      rw [Token.mapAtoms]
      split
      · split <;> exact endsAtom_cons hc _
      · rw [if_neg (by simp [hc])]
        exact endsAtom_cons hc _

/-! ## Lexemes -/

/-- A character that begins neither an atom nor a damage type is a lexeme whatever follows it, or
never is one. -/
theorem next_other {c : Char} (bracket : c ≠ '[') (atom : isAtomChar c = false) :
    (∃ l : Lexeme, (∀ a, l ≠ .atom a) ∧ ∀ offset r, next offset c r = .ok (l, r)) ∨
    ∀ offset r, ∃ fault, next offset c r = .error fault := by
  simp only [next, if_neg bracket, atom, Bool.false_eq_true, if_false]
  split
  · exact .inl ⟨.opening, nofun, fun _ _ => rfl⟩
  split
  · exact .inl ⟨.closing, nofun, fun _ _ => rfl⟩
  split
  · exact .inl ⟨.comma, nofun, fun _ _ => rfl⟩
  split
  · rename_i op _
    exact .inl ⟨.operator op, nofun, fun _ _ => rfl⟩
  · exact .inr fun _ _ => ⟨_, rfl⟩

theorem not_mem_takeWhile (c : Char) (r : Text) : c ∉ r.takeWhile (· != c) := fun mem => by
  simpa using List.all_eq_true.1 (List.all_takeWhile (l := r)) _ mem

/-- A damage type is read up to its bracket. -/
theorem next_damageType {type : Text} (h : ']' ∉ type) (offset : Nat) (rest : Text) :
    next offset '[' (type ++ ']' :: rest) = .ok (.damageType type, rest) := by
  have inside : ∀ c ∈ type, (c != ']') = true := fun c hc => bne_iff_ne.2 (ne_of_mem_of_not_mem hc h)
  rw [next, if_pos rfl, List.dropWhile_append_of_pos inside, List.takeWhile_append_of_pos inside]
  simp

theorem lexemes_damageType {type : Text} (h : ']' ∉ type) (rest : Text) :
    lexemes ('[' :: (type ++ ']' :: rest)) = (lexemes rest).map (.damageType type :: ·) :=
  lexemes_next rfl (next_damageType h 0 rest)

/-- What the lexemes of a text say if its atoms are written otherwise, as atoms. -/
theorem lexemes_mapAtoms (hf : ∀ a, IsAtom a → IsAtom (f a)) (t : Text) :
    lexemes (mapAtoms f t) = (lexemes t).map (·.map (·.mapAtom f)) := by
  fun_induction mapAtoms f t with
  | case1 => simp [lexemes_nil]
  | case2 r unclosed =>
    have fault : next 0 '[' r = .error ⟨.unterminatedDamageType, '[' :: r, 0⟩ := by
      rw [next, if_pos rfl, unclosed]
    rw [lexemes_fault rfl fault]
    rfl
  | case3 r d rest h ih =>
    obtain rfl := dropWhile_ne_cons h
    have type := not_mem_takeWhile ']' r
    have closed : r = r.takeWhile (· != ']') ++ ']' :: rest := by
      rw [← h, List.takeWhile_append_dropWhile]
    rw [List.cons_append, lexemes_damageType type, ih]
    conv => rhs; rw [closed, lexemes_damageType type]
    simp [Function.comp_def, Lexeme.mapAtom]
  | case4 c r bracket atom ih =>
    have isAtom := isAtom_takeWhile atom r
    have ends := endsAtom_dropWhile r
    have whole : c :: r = c :: r.takeWhile isAtomChar ++ r.dropWhile isAtomChar := by
      rw [List.cons_append, List.takeWhile_append_dropWhile]
    rw [lexemes_atom (hf _ isAtom) ends.mapAtoms, ih, whole, lexemes_atom isAtom ends]
    simp [Function.comp_def, Lexeme.mapAtom]
  | case5 c r bracket atom ih =>
    rw [Bool.not_eq_true] at atom
    cases hc : Text.isLayout c with
    | true => rw [lexemes_layout hc, lexemes_layout hc, ih]
    | false =>
      obtain ⟨l, ne, h⟩ | h := next_other bracket atom
      · rw [lexemes_next hc (h 0 _), lexemes_next hc (h 0 _), ih]
        simp [Function.comp_def, Lexeme.mapAtom_of_ne ne]
      · obtain ⟨_, e⟩ := h 0 r
        obtain ⟨_, e'⟩ := h 0 (mapAtoms f r)
        rw [lexemes_fault hc e, lexemes_fault hc e']
        rfl

end Token

end RulesText.Roll
