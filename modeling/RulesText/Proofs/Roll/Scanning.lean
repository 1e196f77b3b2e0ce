/-
Scanning a text piece by piece. `Scans` says which tokens a piece gives in front of a given rest;
pieces are put together from there without another look at the scanner.
-/
import RulesText.Roll.Token

namespace RulesText.Roll.Token

/-! ## Single steps -/

theorem scanFrom_layout {c : Char} (h : Text.isLayout c = true) (offset : Nat)
    (seen : List Token) (r : Text) :
    scanFrom offset seen (c :: r) = scanFrom (offset + 1) seen r := by
  rw [scanFrom, if_pos h]

theorem scanFrom_next {offset : Nat} {c : Char} {r rest : Text} {l : Lexeme}
    (hc : Text.isLayout c = false) (h : next offset c r = .ok (l, rest)) (seen : List Token) :
    scanFrom offset seen (c :: r) =
      scanFrom (offset + l.text.width) (⟨l, offset⟩ :: seen) rest := by
  rw [scanFrom, if_neg (by simp [hc])]
  split
  · rename_i fault e
    rw [h] at e
    cases e
  · rename_i l' rest' e
    rw [h] at e
    cases e
    rfl

theorem scanFrom_fault {offset : Nat} {c : Char} {r : Text} {fault : Fault}
    (hc : Text.isLayout c = false) (h : next offset c r = .error fault) (seen : List Token) :
    scanFrom offset seen (c :: r) = .error fault := by
  rw [scanFrom, if_neg (by simp [hc])]
  split
  · rename_i fault' e
    rw [h] at e
    cases e
    rfl
  · rename_i e
    rw [h] at e
    cases e

/-! ## Pieces -/

/-- In front of `rest` and from byte `offset` on, the text `t` gives the tokens `ts`. -/
def Scans (offset : Nat) (t : Text) (ts : List Token) (rest : Text) : Prop :=
  ∀ seen, scanFrom offset seen (t ++ rest) =
    scanFrom (offset + t.width) (ts.reverse ++ seen) rest

variable {offset : Nat} {s t rest : Text} {ss ts : List Token}

theorem Scans.append (first : Scans offset s ss (t ++ rest))
    (second : Scans (offset + s.width) t ts rest) : Scans offset (s ++ t) (ss ++ ts) rest := by
  intro seen
  rw [List.append_assoc, first, second, Text.width_append, List.reverse_append, Nat.add_assoc,
    List.append_assoc]

theorem Scans.scan (h : Scans 0 t ts []) : scan t = .ok ts := by
  have all := h []
  rw [List.append_nil, List.append_nil, scanFrom] at all
  rw [Token.scan, all, List.reverse_reverse]

theorem scans_blank (offset : Nat) (rest : Text) : Scans offset [' '] [] rest :=
  fun seen => scanFrom_layout rfl offset seen rest

theorem scans_next {c : Char} {r : Text} {l : Lexeme} (text : l.text = c :: r)
    (hc : Text.isLayout c = false) (h : next offset c (r ++ rest) = .ok (l, rest)) :
    Scans offset l.text [⟨l, offset⟩] rest := by
  intro seen
  rw [text, List.cons_append, scanFrom_next hc h, text]
  rfl

theorem scans_opening (offset : Nat) (rest : Text) : Scans offset ['('] [⟨.opening, offset⟩] rest :=
  scans_next (l := .opening) rfl rfl rfl

theorem scans_closing (offset : Nat) (rest : Text) : Scans offset [')'] [⟨.closing, offset⟩] rest :=
  scans_next (l := .closing) rfl rfl rfl

theorem scans_comma (offset : Nat) (rest : Text) : Scans offset [','] [⟨.comma, offset⟩] rest :=
  scans_next (l := .comma) rfl rfl rfl

theorem scans_operator (op : Operator) (offset : Nat) (rest : Text) :
    Scans offset [op.sign] [⟨.operator op, offset⟩] rest :=
  scans_next (l := .operator op) rfl (by cases op <;> rfl) (by cases op <;> rfl)

/-! ## Atoms -/

/-- The texts of atoms: runs of letters, digits, `@` and `.`. -/
def IsAtom (a : Text) : Prop := a ≠ [] ∧ a.all isAtomChar = true

theorem isAtom_takeWhile {c : Char} (h : isAtomChar c = true) (r : Text) :
    IsAtom (c :: r.takeWhile isAtomChar) :=
  ⟨List.cons_ne_nil _ _, by rw [List.all_cons, h, List.all_takeWhile, Bool.and_self]⟩

/-- An atom that ends in front of `t` goes no further. -/
def EndsAtom (t : Text) : Prop := t.takeWhile isAtomChar = []

theorem endsAtom_nil : EndsAtom [] := rfl

theorem endsAtom_cons {c : Char} (h : isAtomChar c = false) (t : Text) : EndsAtom (c :: t) := by
  rw [EndsAtom, List.takeWhile_cons, if_neg (by simp [h])]

theorem ne_of_isAtomChar {c d : Char} (h : isAtomChar c = true) (hd : isAtomChar d = false) :
    c ≠ d := by
  rintro rfl
  simp [h] at hd

theorem isLayout_of_isAtomChar {c : Char} (h : isAtomChar c = true) : Text.isLayout c = false := by
  simp [Text.isLayout, ne_of_isAtomChar h (d := ' ') rfl, ne_of_isAtomChar h (d := '\t') rfl,
    ne_of_isAtomChar h (d := '\n') rfl, ne_of_isAtomChar h (d := '\x0c') rfl,
    ne_of_isAtomChar h (d := '\r') rfl]

/-- An atom is read up to its end. -/
theorem next_atom {c : Char} {r : Text} (h : IsAtom (c :: r)) (ends : EndsAtom rest)
    (offset : Nat) : next offset c (r ++ rest) = .ok (.atom (c :: r), rest) := by
  have all := h.2
  simp only [List.all_cons, Bool.and_eq_true, List.all_eq_true] at all
  obtain ⟨hc, hr⟩ := all
  have behind : rest.dropWhile isAtomChar = rest := by
    have := List.takeWhile_append_dropWhile (p := isAtomChar) (l := rest)
    rwa [ends] at this
  unfold next
  rw [if_neg (ne_of_isAtomChar hc rfl), if_neg (ne_of_isAtomChar hc rfl),
    if_neg (ne_of_isAtomChar hc rfl), if_neg (ne_of_isAtomChar hc rfl), if_pos hc,
    List.takeWhile_append_of_pos hr, List.dropWhile_append_of_pos hr, ends, behind,
    List.append_nil]

variable (offset) in
theorem scans_atom {a : Text} (h : IsAtom a) (ends : EndsAtom rest) :
    Scans offset a [⟨.atom a, offset⟩] rest := by
  obtain ⟨c, r, rfl⟩ := List.exists_cons_of_ne_nil h.1
  have all := h.2
  simp only [List.all_cons, Bool.and_eq_true] at all
  exact scans_next (l := .atom (c :: r)) rfl (isLayout_of_isAtomChar all.1)
    (next_atom h ends offset)

theorem isAtom_of_next {c : Char} {r a : Text} (h : next offset c r = .ok (.atom a, rest)) :
    IsAtom a := by
  unfold next at h
  repeat' split at h
  all_goals cases h
  exact isAtom_takeWhile ‹_› _

theorem isAtom_of_scanFrom {seen tokens : List Token} (h : scanFrom offset seen t = .ok tokens)
    (before : ∀ τ ∈ seen, ∀ a, τ.lexeme = .atom a → IsAtom a) :
    ∀ τ ∈ tokens, ∀ a, τ.lexeme = .atom a → IsAtom a := by
  fun_induction scanFrom offset seen t with
  | case1 offset seen =>
    cases h
    exact fun τ mem => before τ (List.mem_reverse.1 mem)
  | case2 offset seen c r _ ih => exact ih h before
  | case3 => cases h
  | case4 offset seen c r _ l rest e _ ih =>
    refine ih h fun τ mem a ha => ?_
    rcases List.mem_cons.1 mem with rfl | mem
    · obtain rfl : l = .atom a := ha
      exact isAtom_of_next e
    · exact before τ mem a ha

/-- The atoms among the tokens of a text are runs of atom characters. -/
theorem isAtom_of_scan {tokens : List Token} (h : scan t = .ok tokens) {τ : Token}
    (mem : τ ∈ tokens) {a : Text} (ha : τ.lexeme = .atom a) : IsAtom a :=
  isAtom_of_scanFrom h (by simp) τ mem a ha

end RulesText.Roll.Token
