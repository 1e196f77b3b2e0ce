/-
What scanning makes of a text: tokens that leave nothing over but blanks (`Covering`), or a fault at
the first place outside of damage types where a bracket is never closed or a character stands that
no roll has there (`Stuck`). There is no third case (`scan_exact`).
-/
import RulesText.Proofs.Roll.Spacing

namespace RulesText.Roll.Token

open Text (Layout)

variable {offset : Nat} {c : Char} {s t u r rest before after : Text} {l : Lexeme}
  {ts : List Token}

/-! ## Tokens that cover a text -/

/-- The tokens lie in the text one behind the other, at the bytes that they name, and what they
leave over are blanks. An atom takes all the atom characters that there are, so the next atom comes
behind a blank, and a damage type ends at the first bracket that closes. -/
structure Covering (t : Text) (ts : List Token) : Prop where
  ne_nil : ∀ x ∈ ts, x.text ≠ []
  stands : ∀ x ∈ ts, x.Stands t
  ordered : ts.Pairwise fun x y => x.stop ≤ y.offset
  /-- A character that belongs to no token is a blank. -/
  blank : ∀ (before : Text) (c : Char) (after : Text), t = before ++ c :: after →
    (∀ x ∈ ts, ¬ (x.offset ≤ before.width ∧ before.width < x.stop)) → Text.isLayout c = true
  damageType : ∀ x ∈ ts, ∀ type, x.lexeme = .damageType type →
    x.text = '[' :: type ++ [']'] ∧ ']' ∉ type
  atom : ∀ x ∈ ts, ∀ a, x.lexeme = .atom a → x.text = a ∧ IsAtom a
  apart : ∀ front x y behind a b, ts = front ++ x :: y :: behind → x.lexeme = .atom a →
    y.lexeme = .atom b →
    ∃ gap : Text, gap ≠ [] ∧ Layout gap ∧ gap.StandsAt x.stop t ∧ y.offset = x.stop + gap.width

theorem Spaced.le_offset (h : Spaced offset t ts) : ∀ x ∈ ts, offset ≤ x.offset := by
  induction h with
  | nil _ => exact nofun
  | cons _ place _ _ ih =>
    refine List.forall_mem_cons.2 ⟨by omega, fun y mem => ?_⟩
    have behind := ih y mem
    rw [stop] at behind
    omega

theorem Spaced.ordered (h : Spaced offset t ts) : ts.Pairwise fun x y => x.stop ≤ y.offset := by
  induction h with
  | nil _ => exact List.Pairwise.nil
  | cons _ _ _ behind ih => exact List.pairwise_cons.2 ⟨behind.le_offset, ih⟩

/-- Each token can be read where it stands, in front of what follows it. -/
theorem Spaced.endsBefore (h : Spaced offset t ts) :
    ∀ x ∈ ts, ∃ rest, x.lexeme.EndsBefore rest := by
  intro x mem
  obtain ⟨front, behind, rfl⟩ := List.append_of_mem mem
  obtain ⟨-, rest, -, -, -, ends, -⟩ := h.split
  exact ⟨rest, ends⟩

/-- A character of two texts in a row is one of the first, and stands in it, or one of the second. -/
theorem append_eq_append_cons (h : s ++ t = before ++ c :: after) :
    c ∈ s ∧ before.width < s.width ∨ ∃ mid, before = s ++ mid ∧ t = mid ++ c :: after := by
  rcases List.append_eq_append_iff.1 h with ⟨mid, rfl, rfl⟩ | ⟨mid, rfl, e⟩
  · exact .inr ⟨mid, rfl, rfl⟩
  · cases mid with
    | nil => exact .inr ⟨[], by simp, e.symm⟩
    | cons d mid =>
      obtain ⟨rfl, -⟩ := List.cons.inj e
      have pos := c.utf8Size_pos
      refine .inl ⟨by simp, ?_⟩
      rw [Text.width_append, Text.width_cons]
      omega

/-- What stands outside of all tokens is blank. -/
theorem Spaced.uncovered (h : Spaced offset t ts) (split : t = before ++ c :: after)
    (outside : ∀ x ∈ ts, ¬ (x.offset ≤ offset + before.width ∧ offset + before.width < x.stop)) :
    Text.isLayout c = true := by
  induction h generalizing before with
  | @nil offset gap layout => exact layout c (by rw [split]; simp)
  | @cons offset gap rest x ts layout place ends behind ih =>
    obtain ⟨here, others⟩ := List.forall_mem_cons.1 outside
    rw [List.append_assoc] at split
    rcases append_eq_append_cons split with ⟨blank, -⟩ | ⟨mid, rfl, e⟩
    · exact layout c blank
    · rw [Text.width_append, ← Nat.add_assoc, ← place] at here others
      rcases append_eq_append_cons e with ⟨-, inside⟩ | ⟨mid', rfl, e'⟩
      · rw [stop] at here
        omega
      · refine ih e' fun y mem => ?_
        have apart := others y mem
        rwa [Text.width_append, ← Nat.add_assoc] at apart

/-- In front of an atom that follows another stands at least one blank. -/
theorem Spaced.apart {front behind : List Token} {x y : Token} {a b : Text}
    (h : Spaced 0 t (front ++ x :: y :: behind)) (hx : x.lexeme = .atom a)
    (hy : y.lexeme = .atom b) :
    ∃ gap : Text, gap ≠ [] ∧ Layout gap ∧ gap.StandsAt x.stop t ∧
      y.offset = x.stop + gap.width := by
  obtain ⟨u, rest, rfl, -, start, ends, spaced⟩ := h.split
  cases spaced with
  | @cons _ gap rest _ _ layout place ends' _ =>
    refine ⟨gap, ?_, layout, ⟨u ++ x.text, y.text ++ rest, by simp, ?_⟩, place⟩
    · rintro rfl
      -- Without a gap the first atom would go on with the characters of the second.
      rw [hx] at ends
      rw [hy] at ends'
      obtain ⟨d, b, rfl⟩ := List.exists_cons_of_ne_nil ends'.1.1
      have goes : EndsAtom ([] ++ y.text ++ rest) := ends.2
      have all := ends'.1.2
      simp only [List.all_cons, Bool.and_eq_true] at all
      simp [text, hy, Lexeme.text, EndsAtom, all.1] at goes
    · rw [Text.width_append, stop, start, Nat.zero_add]

theorem Spaced.covering (h : Spaced 0 t ts) : Covering t ts where
  ne_nil x mem := by
    obtain ⟨rest, ends⟩ := h.endsBefore x mem
    exact (edges ends).1
  stands := (stands_of_scan t).2 ts (scan_ok_iff.2 h)
  ordered := h.ordered
  blank before c after split outside := h.uncovered split (by simpa using outside)
  damageType x mem type hx := by
    obtain ⟨rest, ends⟩ := h.endsBefore x mem
    rw [hx] at ends
    exact ⟨congrArg Lexeme.text hx, ends⟩
  atom x mem a hx := by
    obtain ⟨rest, ends⟩ := h.endsBefore x mem
    rw [hx] at ends
    exact ⟨congrArg Lexeme.text hx, ends.1⟩
  apart := by
    rintro front x y behind a b rfl hx hy
    exact h.apart hx hy

/-! ## Places where no token can be read -/

/-- Behind such a text no damage type is open, if each is read up to the first bracket that closes
it. -/
inductive Outside : Text → Prop
  | nil : Outside []
  | char {c : Char} {t : Text} : c ≠ '[' → Outside t → Outside (c :: t)
  | damageType {type t : Text} : ']' ∉ type → Outside t → Outside ('[' :: type ++ ']' :: t)

/-- Whether a roll can have the character outside of damage types. -/
def isRollChar (c : Char) : Bool :=
  c.isAlpha || c.isDigit || "@.+-*/(),[".toList.contains c || Text.isLayout c

/-- Behind `before`, and outside of damage types, the text has a bracket that is never closed, or a
character that no roll has there. -/
def Stuck (t before : Text) : Prop :=
  ∃ c after, t = before ++ c :: after ∧ Outside before ∧
    (c = '[' ∧ ']' ∉ after ∨ isRollChar c = false)

theorem not_stuck_nil : ¬ Stuck [] before := by
  rintro ⟨c, after, e, -⟩
  simp at e

/-- Characters that a roll can have, and which are no brackets, are passed. -/
theorem stuck_append (plain : ∀ c ∈ s, c ≠ '[' ∧ isRollChar c = true) :
    Stuck (s ++ t) before ↔ ∃ p, before = s ++ p ∧ Stuck t p := by
  induction s generalizing before with
  | nil => simp
  | cons d s ih =>
    obtain ⟨⟨bracket, known⟩, plain⟩ := List.forall_mem_cons.1 plain
    constructor
    · rintro ⟨c, after, e, outside, h⟩
      cases outside with
      | nil =>
        obtain ⟨rfl, -⟩ := List.cons.inj e
        simp [bracket, known] at h
      | char _ outside =>
        obtain ⟨rfl, e'⟩ := List.cons.inj e
        obtain ⟨p, rfl, stuck⟩ := (ih plain).1 ⟨c, after, e', outside, h⟩
        exact ⟨p, rfl, stuck⟩
      | damageType _ _ => exact absurd (List.cons.inj e).1 bracket
    · rintro ⟨p, rfl, stuck⟩
      obtain ⟨c, after, e, outside, h⟩ := (ih plain).2 ⟨p, rfl, stuck⟩
      exact ⟨c, after, congrArg (d :: ·) e, .char bracket outside, h⟩

theorem stuck_damageType {type : Text} (closed : ']' ∉ type) :
    Stuck ('[' :: (type ++ ']' :: t)) before ↔
      ∃ p, before = '[' :: (type ++ ']' :: p) ∧ Stuck t p := by
  constructor
  · rintro ⟨c, after, e, outside, h⟩
    cases outside with
    | nil =>
      obtain ⟨rfl, rfl⟩ := List.cons.inj e
      rcases h with ⟨-, never⟩ | unknown
      · simp at never
      · exact absurd unknown (by decide)
    | char bracket _ => exact absurd (List.cons.inj e).1.symm bracket
    | @damageType type' p closed' outside =>
      -- Both damage types are what is read up to the first closing bracket.
      have same : type ++ ']' :: t = type' ++ ']' :: (p ++ c :: after) := by simpa using e
      have read := next_damageType closed 0 t
      rw [same, next_damageType closed'] at read
      cases read
      exact ⟨p, by simp, c, after, rfl, outside, h⟩
  · rintro ⟨p, rfl, c, after, rfl, outside, h⟩
    exact ⟨c, after, by simp, by simpa using Outside.damageType closed outside, h⟩

theorem isRollChar_of_isAtomChar (h : isAtomChar c = true) : isRollChar c = true := by
  simp only [isAtomChar, Char.isAlphanum, Bool.or_eq_true, decide_eq_true_eq] at h
  rcases h with ((alpha | digit) | rfl) | rfl
  · simp [isRollChar, alpha]
  · simp [isRollChar, digit]
  · rfl
  · rfl

/-- A lexeme is passed as a whole. -/
theorem stuck_text (ends : l.EndsBefore rest) :
    Stuck (l.text ++ rest) before ↔ ∃ p, before = l.text ++ p ∧ Stuck rest p := by
  cases l with
  | atom a =>
    refine stuck_append fun c mem => ?_
    have hc := List.all_eq_true.1 ends.1.2 c mem
    exact ⟨ne_of_isAtomChar hc rfl, isRollChar_of_isAtomChar hc⟩
  | operator op => exact stuck_append (by cases op <;> simp [Lexeme.text, Operator.sign] <;> decide)
  | damageType type => simpa [Lexeme.text] using stuck_damageType ends
  | opening | closing | comma => exact stuck_append (by simp [Lexeme.text]; decide)

/-- Blanks are passed wherever they stand. -/
theorem layout_plain {gap : Text} (h : Layout gap) :
    ∀ c ∈ gap, c ≠ '[' ∧ isRollChar c = true := by
  intro c mem
  have hc := h c mem
  refine ⟨?_, by simp [isRollChar, hc]⟩
  rintro rfl
  exact absurd hc (by decide)

theorem Spaced.not_stuck (h : Spaced offset t ts) : ¬ Stuck t before := by
  induction h generalizing before with
  | @nil _ gap layout =>
    rw [← List.append_nil gap, stuck_append (layout_plain layout)]
    rintro ⟨p, -, stuck⟩
    exact not_stuck_nil stuck
  | cons layout _ ends _ ih =>
    rw [List.append_assoc, stuck_append (layout_plain layout)]
    rintro ⟨p, -, stuck⟩
    obtain ⟨q, -, stuck⟩ := (stuck_text ends).1 stuck
    exact ih stuck

/-- Why no lexeme can be read. -/
theorem next_error {f : Fault} (hc : Text.isLayout c = false) (h : next offset c r = .error f) :
    c = '[' ∧ ']' ∉ r ∧ f = ⟨.unterminatedDamageType, c :: r, offset⟩ ∨
      c ≠ '[' ∧ isRollChar c = false ∧ f = ⟨.unexpectedCharacter, [c], offset⟩ := by
  unfold next at h
  split at h
  · rename_i bracket
    split at h
    · rename_i never
      cases h
      have whole := List.takeWhile_append_dropWhile (p := (· != ']')) (l := r)
      rw [never, List.append_nil] at whole
      exact .inl ⟨bracket, whole ▸ not_mem_takeWhile ']' r, rfl⟩
    · cases h
  · rename_i bracket
    repeat' split at h
    all_goals cases h
    rename_i opening closing comma atom _ none
    refine .inr ⟨bracket, ?_, rfl⟩
    have sign (op : Operator) : c ≠ op.sign := by
      rintro rfl
      rw [Operator.ofSign?_sign] at none
      cases none
    simp only [isAtomChar, Char.isAlphanum, Bool.or_eq_true, decide_eq_true_eq, not_or,
      Bool.not_eq_true] at atom
    obtain ⟨⟨⟨alpha, digit⟩, at_sign⟩, point⟩ := atom
    have plus : c ≠ '+' := sign .add
    have minus : c ≠ '-' := sign .subtract
    have times : c ≠ '*' := sign .multiply
    have slash : c ≠ '/' := sign .divide
    simp [isRollChar, *]

/-- The first place where a text that begins at byte `offset` is stuck, and the fault there: the
rest of the text from a bracket that is never closed, or else a single character. -/
def StuckFirst (offset : Nat) (t : Text) (f : Fault) : Prop :=
  ∃ before c after, t = before ++ c :: after ∧ Stuck t before ∧
    (∀ other, Stuck t other → before <+: other) ∧
    f = if c = '[' then ⟨.unterminatedDamageType, c :: after, offset + before.width⟩
      else ⟨.unexpectedCharacter, [c], offset + before.width⟩

theorem StuckFirst.append {f : Fault} (h : StuckFirst (offset + s.width) t f)
    (passed : ∀ before, Stuck (s ++ t) before ↔ ∃ p, before = s ++ p ∧ Stuck t p) :
    StuckFirst offset (s ++ t) f := by
  obtain ⟨before, c, after, rfl, stuck, first, rfl⟩ := h
  refine ⟨s ++ before, c, after, by simp, (passed _).2 ⟨before, rfl, stuck⟩, fun other h => ?_, ?_⟩
  · obtain ⟨p, rfl, stuck⟩ := (passed other).1 h
    exact (List.prefix_append_right_inj s).2 (first p stuck)
  · rw [Text.width_append, Nat.add_assoc]

theorem stuck_of_scanFrom {seen : List Token} {f : Fault}
    (h : scanFrom offset seen t = .error f) : StuckFirst offset t f := by
  fun_induction scanFrom offset seen t with
  | case1 => cases h
  | case2 offset seen c r layout ih =>
    refine StuckFirst.append (s := [c]) ?_ fun before => ?_
    · rw [Text.width_cons, Text.utf8Size_of_isLayout layout]
      exact ih h
    · exact stuck_append (layout_plain (by simpa [Layout] using layout))
  | case3 offset seen c r layout fault e =>
    cases h
    rw [Bool.not_eq_true] at layout
    rcases next_error layout e with ⟨rfl, never, rfl⟩ | ⟨bracket, unknown, rfl⟩
    · exact ⟨[], _, r, rfl, ⟨_, r, rfl, .nil, .inl ⟨rfl, never⟩⟩, fun _ _ => List.nil_prefix, rfl⟩
    · exact ⟨[], c, r, rfl, ⟨c, r, rfl, .nil, .inr unknown⟩, fun _ _ => List.nil_prefix,
        by rw [if_neg bracket]; rfl⟩
  | case4 offset seen c r _ l rest e _ ih =>
    obtain ⟨text, ends⟩ := next_ok_iff.1 e
    rw [text]
    exact (ih h).append fun before => stuck_text ends

/-! ## Scanning -/

/-- Scanning gives tokens that cover the text, or it fails; it fails exactly if the text is stuck
somewhere, and reports the first place where it is: the rest of the text from a bracket that is
never closed, or the character that no roll has. -/
theorem scan_exact (t : Text) :
    (∀ ts, scan t = .ok ts → Covering t ts) ∧
    ((∃ f, scan t = .error f) ↔ ∃ before, Stuck t before) ∧
    ∀ f, scan t = .error f → StuckFirst 0 t f := by
  refine ⟨fun ts h => (scan_ok_iff.1 h).covering, ⟨?_, ?_⟩, fun f => stuck_of_scanFrom⟩
  · rintro ⟨f, h⟩
    obtain ⟨before, -, -, -, stuck, -⟩ := stuck_of_scanFrom h
    exact ⟨before, stuck⟩
  · rintro ⟨before, stuck⟩
    cases h : scan t with
    | error f => exact ⟨f, rfl⟩
    | ok ts => exact absurd stuck (scan_ok_iff.1 h).not_stuck

/-- Whatever stands in a damage type is part of it, and the first character that no roll has is
reported, not the bracket behind it that is never closed. -/
theorem percent_signs_scanned :
    (scan "2d6 d4[a[%b]".toList =
        .ok [⟨.atom "2d6".toList, 0⟩, ⟨.atom "d4".toList, 4⟩, ⟨.damageType "a[%b".toList, 6⟩] ∧
      Covering "2d6 d4[a[%b]".toList
        [⟨.atom "2d6".toList, 0⟩, ⟨.atom "d4".toList, 4⟩, ⟨.damageType "a[%b".toList, 6⟩]) ∧
    scan "2d6[é]+%[fire".toList = .error ⟨.unexpectedCharacter, ['%'], 8⟩ ∧
      StuckFirst 0 "2d6[é]+%[fire".toList ⟨.unexpectedCharacter, ['%'], 8⟩ := by
  have tokens : scan "2d6 d4[a[%b]".toList =
      .ok [⟨.atom "2d6".toList, 0⟩, ⟨.atom "d4".toList, 4⟩, ⟨.damageType "a[%b".toList, 6⟩] := by
    decide +kernel
  have fault : scan "2d6[é]+%[fire".toList = .error ⟨.unexpectedCharacter, ['%'], 8⟩ := by
    decide +kernel
  exact ⟨⟨tokens, (scan_exact _).1 _ tokens⟩, fault, (scan_exact _).2.2 _ fault⟩

end RulesText.Roll.Token
