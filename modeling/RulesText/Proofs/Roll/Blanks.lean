/-
Rolls with blanks put in around their tokens. No step of a reading looks at a position except to
report it, so readings of tokens that say the same stay in step, and fail for the same cause if they
fail (`feedAll_agrees`). Blanks change nothing but positions, so a roll is read, and worked out, as
it is without them (`parse_widened`).
-/
import RulesText.Proofs.Roll.Spacing

namespace RulesText.Roll

open List (Forall₂)
open Text (Layout)

/-! ## Results up to positions -/

/-- Related answers, or faults with the same cause. -/
inductive Agrees {α β : Type} (R : α → β → Prop) : Except Fault α → Except Fault β → Prop
  | ok {a : α} {b : β} : R a b → Agrees R (.ok a) (.ok b)
  | error {f g : Fault} : f.cause = g.cause → Agrees R (.error f) (.error g)

namespace Agrees

variable {α β γ δ : Type} {R : α → β → Prop} {S : γ → δ → Prop} {x : Except Fault α}
  {y : Except Fault β}

theorem bind {f : α → Except Fault γ} {g : β → Except Fault δ} (first : Agrees R x y)
    (second : ∀ a b, R a b → Agrees S (f a) (g b)) : Agrees S (x >>= f) (y >>= g) := by
  cases first with
  | ok h => exact second _ _ h
  | error same => exact .error same

theorem map {f : α → γ} {g : β → δ} (h : Agrees R x y) (answers : ∀ a b, R a b → S (f a) (g b)) :
    Agrees S (f <$> x) (g <$> y) := by
  cases h with
  | ok h => exact .ok (answers _ _ h)
  | error same => exact .error same

theorem guard {p q : Prop} [Decidable p] [Decidable q] {e e' : Fault} {f : γ → Except Fault α}
    {g : δ → Except Fault β} (same : p ↔ q) (cause : e.cause = e'.cause) (rest : Agrees R x y) :
    Agrees R (if p then throw e >>= f else x) (if q then throw e' >>= g else y) := by
  by_cases h : p
  · rw [if_pos h, if_pos (same.1 h)]
    exact .error cause
  · rw [if_neg h, if_neg (mt same.2 h)]
    exact rest

end Agrees

/-- Marks that differ in the place of a parenthesis at most. -/
inductive Mark.Like : Mark → Mark → Prop
  | operator (op : Operator) : Like (.operator op) (.operator op)
  | group (function : Option Builtin) (base offset offset' : Nat) :
      Like (.group function base offset) (.group function base offset')

/-- Whatever is wrong, the faults at both spots have the same cause. -/
def SameCauses (spot spot' : Cause → Fault) : Prop :=
  ∀ cause, (spot cause).cause = (spot' cause).cause

theorem Token.fault_sameCauses (t t' : Token) : SameCauses t.fault t'.fault := fun _ => rfl

namespace Reading

variable {spot spot' : Cause → Fault}

/-! ## Settling -/

theorem popOperand_agrees (same : SameCauses spot spot') (o : List Tree) :
    Agrees Eq (popOperand spot o) (popOperand spot' o) := by
  cases o with
  | nil => exact .error (same _)
  | cons t o => exact .ok rfl

theorem join_agrees (same : SameCauses spot spot') (op : Operator) (o : List Tree) :
    Agrees Eq (join spot op o) (join spot' op o) := by
  refine (popOperand_agrees same o).bind ?_
  rintro p _ rfl
  refine (popOperand_agrees same p.2).bind ?_
  rintro q _ rfl
  exact .ok rfl

theorem settle_agrees (same : SameCauses spot spot') (binds : Operator → Bool) {m n : List Mark}
    (like : Forall₂ Mark.Like m n) (o : List Tree) :
    Agrees (fun p q => Forall₂ Mark.Like p.1 q.1 ∧ p.2 = q.2)
      (settle spot binds m o) (settle spot' binds n o) := by
  induction like generalizing o with
  | nil => exact .ok ⟨.nil, rfl⟩
  | cons head tail ih =>
    cases head with
    | group function base offset offset' =>
      exact .ok ⟨.cons (.group function base offset offset') tail, rfl⟩
    | operator op =>
      by_cases h : binds op = true
      · rw [settle, settle, if_pos h, if_pos h]
        refine (join_agrees same op o).bind ?_
        rintro p _ rfl
        exact ih p
      · rw [settle, settle, if_neg h, if_neg h]
        exact .ok ⟨.cons (.operator op) tail, rfl⟩

/-! ## Readings in step -/

/-- Readings that differ in positions only, and in the parts of the roll that their terms show. -/
structure InStep (r s : Reading) : Prop where
  operands : r.operands = s.operands
  marks : Forall₂ Mark.Like r.marks s.marks
  terms : r.terms.map Term.content = s.terms.map Term.content
  awaitsOperand : r.awaitsOperand = s.awaitsOperand
  callee : r.callee.map (·.1) = s.callee.map (·.1)
  last : r.last.map (·.lexeme) = s.last.map (·.lexeme)

variable {r s : Reading} {t t' : Token} {source source' : Text}

theorem InStep.start : InStep {} {} := ⟨rfl, .nil, rfl, rfl, rfl, rfl⟩

theorem afterDamageType_iff :
    r.afterDamageType = true ↔ ∃ type, r.last.map (·.lexeme) = some (.damageType type) := by
  cases h : r.last with
  | none => simp [afterDamageType, h]
  | some t => simpa using afterDamageType_of_last h

theorem InStep.afterDamageType (h : InStep r s) : r.afterDamageType = s.afterDamageType := by
  rw [Bool.eq_iff_iff, afterDamageType_iff, afterDamageType_iff, h.last]

theorem InStep.marks_isEmpty (h : InStep r s) : r.marks.isEmpty = s.marks.isEmpty := by
  have marks := h.marks
  generalize r.marks = m, s.marks = n at marks
  cases marks <;> rfl

theorem InStep.terms_isEmpty (h : InStep r s) : r.terms.isEmpty = s.terms.isEmpty := by
  rw [← List.isEmpty_map, h.terms, List.isEmpty_map]

theorem InStep.extend (h : InStep r s) (t t' : Token) : InStep (r.extend t) (s.extend t') := by
  obtain ⟨operands, marks, terms, awaitsOperand, callee, last⟩ := h
  constructor <;> simpa

theorem InStep.settleAll (h : InStep r s) (same : SameCauses spot spot') :
    Agrees InStep (r.settleAll spot) (s.settleAll spot') := by
  unfold Reading.settleAll
  rw [h.operands]
  refine (settle_agrees same _ h.marks _).bind ?_
  rintro p q ⟨marks, operands⟩
  exact .ok ⟨operands, marks, h.terms, h.awaitsOperand, h.callee, h.last⟩

theorem InStep.finishTerm (h : InStep r s) (same : SameCauses spot spot')
    (fallback fallback' : Nat) (type : Option Text) :
    Agrees InStep (r.finishTerm source spot fallback type)
      (s.finishTerm source' spot' fallback' type) := by
  unfold Reading.finishTerm
  rw [h.operands]
  refine (popOperand_agrees same s.operands).bind ?_
  rintro p _ rfl
  refine Agrees.guard Iff.rfl (same _) (.ok ?_)
  exact ⟨rfl, h.marks, by simp [Term.content, h.terms], rfl, h.callee, h.last⟩

/-! ## One token -/

theorem InStep.atom (h : InStep r s) (a : Text) : Agrees InStep (r.atom t a) (s.atom t' a) := by
  unfold Reading.atom
  rw [h.awaitsOperand, h.last, h.operands]
  split
  · split
    · exact .ok ⟨rfl, h.marks, h.terms, rfl, rfl, h.last⟩
    · exact .ok ⟨rfl, h.marks, h.terms, rfl, h.callee, h.last⟩
  · split
    · refine (popOperand_agrees (t.fault_sameCauses t') s.operands).bind ?_
      rintro p _ rfl
      exact .ok ⟨rfl, h.marks, h.terms, rfl, h.callee, h.last⟩
    · exact .error rfl

theorem InStep.operator (h : InStep r s) (op : Operator) :
    Agrees InStep (r.operator t op) (s.operator t' op) := by
  unfold Reading.operator
  rw [h.operands]
  refine Agrees.guard (by rw [h.awaitsOperand]) rfl ?_
  refine (settle_agrees (t.fault_sameCauses t') _ h.marks _).bind ?_
  rintro p q ⟨marks, operands⟩
  exact .ok ⟨operands, .cons (.operator op) marks, h.terms, rfl, h.callee, h.last⟩

theorem InStep.opening (h : InStep r s) : Agrees InStep (r.opening t) (s.opening t') := by
  have last := h.last
  unfold Reading.opening
  rw [h.awaitsOperand, h.callee, h.operands]
  split
  · exact .ok ⟨rfl, .cons (.group _ _ _ _) h.marks, h.terms, rfl, rfl, h.last⟩
  · generalize r.last = x, s.last = y at last
    rcases x with _ | ⟨l, offset⟩ <;> rcases y with _ | ⟨l', offset'⟩ <;> cases last
    · exact .error rfl
    · cases l <;> exact .error rfl

theorem InStep.closing (h : InStep r s) : Agrees InStep (r.closing t) (s.closing t') := by
  refine Agrees.guard (by rw [h.awaitsOperand]) rfl ?_
  refine (h.settleAll (t.fault_sameCauses t')).bind ?_
  rintro ⟨o, m, _⟩ ⟨_, n, _⟩ ⟨rfl, marks, terms, due, callee, last⟩
  dsimp only at marks ⊢
  -- The innermost group decides, and it is the same on both sides.
  cases marks with
  | nil => exact .error rfl
  | cons head tail =>
    cases head with
    | operator op => exact .error rfl
    | group function base offset offset' =>
      cases function with
      | none => exact Agrees.guard Iff.rfl rfl (.ok ⟨rfl, tail, terms, due, callee, last⟩)
      | some function => exact Agrees.guard Iff.rfl rfl (.ok ⟨rfl, tail, terms, due, callee, last⟩)

theorem InStep.comma (h : InStep r s) :
    Agrees InStep (r.comma source t) (s.comma source' t') := by
  unfold Reading.comma
  rw [h.operands, h.marks_isEmpty, h.afterDamageType]
  dsimp only
  split
  · split
    · exact .ok h
    · exact .error rfl
  · refine Agrees.guard (by rw [h.awaitsOperand]) rfl ?_
    refine (h.settleAll (t.fault_sameCauses t')).bind ?_
    rintro ⟨o, m, _⟩ ⟨p, n, _⟩ h
    have marks : Forall₂ Mark.Like m n := h.marks
    dsimp only
    cases marks with
    | nil => exact h.finishTerm (t.fault_sameCauses t') _ _ _
    | cons head tail =>
      cases head with
      | operator op => exact h.finishTerm (t.fault_sameCauses t') _ _ _
      | group function base offset offset' =>
        cases function with
        | none => exact .error rfl
        | some function => exact .ok ⟨h.operands, h.marks, h.terms, rfl, h.callee, h.last⟩

theorem InStep.damageType (h : InStep r s) (type : Text) :
    Agrees InStep (r.damageType source t type) (s.damageType source' t' type) := by
  refine Agrees.guard (by rw [h.awaitsOperand]) rfl ?_
  refine (h.settleAll (t.fault_sameCauses t')).bind fun p q h => ?_
  exact Agrees.guard (by rw [h.marks_isEmpty]) rfl (h.finishTerm (t.fault_sameCauses t') _ _ _)

theorem InStep.handled (h : InStep r s) (same : t.lexeme = t'.lexeme) :
    Agrees InStep (r.handled source t) (s.handled source' t') := by
  unfold Reading.handled
  rw [← same]
  cases t.lexeme with
  | atom a => exact h.atom a
  | operator op => exact h.operator op
  | opening => exact h.opening
  | closing => exact h.closing
  | comma => exact h.comma
  | damageType type => exact h.damageType type

theorem InStep.feed (h : InStep r s) (same : t.lexeme = t'.lexeme) :
    Agrees InStep (r.feed source t) (s.feed source' t') := by
  have callees := h.callee
  by_cases callee : r.callee = none ∨ t.lexeme = .opening
  · have callee' : s.callee = none ∨ t'.lexeme = .opening := by
      rw [← same]
      refine callee.imp_left fun none => ?_
      rw [none] at callees
      simpa using callees.symm
    rw [feed_of_called callee, feed_of_called callee', h.afterDamageType, ← same]
    split
    · exact .error rfl
    · refine ((h.extend t t').handled same).map fun p q h => ?_
      exact ⟨h.operands, h.marks, h.terms, h.awaitsOperand, h.callee, congrArg some same⟩
  · obtain ⟨uncalled, ht⟩ := not_or.1 callee
    obtain ⟨⟨function, offset⟩, hr⟩ := Option.ne_none_iff_exists'.1 uncalled
    rw [hr, Option.map_some, eq_comm, Option.map_eq_some_iff] at callees
    obtain ⟨⟨_, offset'⟩, hs, rfl⟩ := callees
    rw [feed_of_uncalled hr ht, feed_of_uncalled hs (same ▸ ht)]
    exact .error rfl

/-- Readings stay in step on tokens that say the same. -/
theorem feedAll_agrees {ts us : List Token} (h : InStep r s)
    (same : ts.map (·.lexeme) = us.map (·.lexeme)) :
    Agrees InStep (feedAll source r ts) (feedAll source' s us) := by
  induction ts generalizing r s us with
  | nil =>
    obtain rfl : us = [] := List.map_eq_nil_iff.1 same.symm
    exact .ok h
  | cons t ts ih =>
    obtain ⟨u, us, rfl, head, tail⟩ := List.map_eq_cons_iff.1 same.symm
    exact (h.feed head.symm).bind fun _ _ h => ih h tail.symm

/-! ## The end of a roll -/

/-- The same expressions with the same damage types. -/
def SameContents (terms terms' : List Term) : Prop :=
  terms.map Term.content = terms'.map Term.content

theorem InStep.closeLast (h : InStep r s) :
    Agrees SameContents (r.closeLast source) (s.closeLast source') := by
  have empty {p q : Reading} (h : InStep p q) : Agrees SameContents
      (do
        if p.terms.isEmpty then throw ⟨.emptyRoll, source, 0⟩
        return p.terms.reverse)
      (do
        if q.terms.isEmpty then throw ⟨.emptyRoll, source', 0⟩
        return q.terms.reverse) := by
    refine Agrees.guard (by rw [h.terms_isEmpty]) rfl (.ok ?_)
    rw [SameContents, List.map_reverse, List.map_reverse, h.terms]
  have same : SameCauses (fun cause => ⟨cause, [], source.width⟩)
      fun cause => ⟨cause, [], source'.width⟩ := fun _ => rfl
  unfold Reading.closeLast
  rw [h.operands, h.marks_isEmpty]
  dsimp only
  split
  · exact empty h
  · refine Agrees.guard (by rw [h.awaitsOperand]) rfl ?_
    refine (h.settleAll same).bind fun p q h => ?_
    refine Agrees.guard (by rw [h.marks_isEmpty]) rfl ?_
    exact (h.finishTerm same _ _ _).bind fun _ _ => empty

theorem InStep.finish (h : InStep r s) :
    Agrees SameContents (r.finish source) (s.finish source') := by
  have callees := h.callee
  cases callee : r.callee with
  | none =>
    rw [callee] at callees
    have callee' : s.callee = none := by simpa using callees.symm
    obtain ⟨offset, -, e⟩ := finish_of_called source callee
    obtain ⟨offset', -, e'⟩ := finish_of_called source' callee'
    rw [e, e', h.last, h.marks_isEmpty]
    split
    · exact .error rfl
    · exact h.closeLast
  | some named =>
    rw [callee, Option.map_some, eq_comm, Option.map_eq_some_iff] at callees
    obtain ⟨⟨_, offset'⟩, callee', rfl⟩ := callees
    rw [finish_of_uncalled callee, finish_of_uncalled callee']
    exact .error rfl

end Reading

/-! ## Wider rolls -/

namespace Token

/-- With blanks put in before, between and behind its tokens, the first text becomes the second. -/
inductive Widened : List Token → Text → Text → Prop
  | nil {gap wide : Text} : Layout wide → gap.Sublist wide → Widened [] gap wide
  | cons {t : Token} {ts : List Token} {gap wide rest rest' : Text} : Layout wide →
      gap.Sublist wide → Widened ts rest rest' →
      Widened (t :: ts) (gap ++ t.text ++ rest) (wide ++ t.text ++ rest')

variable {offset : Nat} {t wide gap rest : Text} {x : Token} {ts : List Token}

/-- Blanks in front of another character are all those in front of it. -/
theorem takeWhile_layout {u : Text} (h : Layout gap)
    (plain : ∀ c ∈ u.head?, Text.isLayout c = false) : (gap ++ u).takeWhile Text.isLayout = gap := by
  rw [List.takeWhile_append_of_pos h]
  cases u with
  | nil => simp
  | cons c u => simp [plain c rfl]

/-- What follows the first token of a text. -/
theorem Spaced.behind (h : Spaced offset (gap ++ x.text ++ rest) (x :: ts)) (layout : Layout gap) :
    x.lexeme.EndsBefore rest ∧ Spaced x.stop rest ts := by
  generalize e : gap ++ x.text ++ rest = t at h
  cases h with
  | @cons _ gap' rest' _ _ layout' _ ends spaced =>
    obtain ⟨ne, plain, -⟩ := edges ends
    have begins (r : Text) : ∀ c ∈ (x.text ++ r).head?, Text.isLayout c = false := by
      rwa [List.head?_append_of_ne_nil _ ne]
    rw [List.append_assoc, List.append_assoc] at e
    obtain rfl : gap = gap' := by
      rw [← takeWhile_layout layout (begins rest), e, takeWhile_layout layout' (begins rest')]
    obtain rfl : rest = rest' := List.append_cancel_left (List.append_cancel_left e)
    exact ⟨ends, spaced⟩

/-- A wider text begins with a blank, or as the text does. -/
theorem Widened.head (w : Widened ts t wide) (h : Spaced offset t ts) :
    ∀ c ∈ wide.head?, Text.isLayout c = true ∨ c ∈ t.head? := by
  cases w with
  | nil layout _ => exact fun c mem => .inl (layout c (List.mem_of_mem_head? mem))
  | @cons x ts gap wide rest rest' layout sub _ =>
    obtain ⟨ends, -⟩ := h.behind fun c mem => layout c (sub.subset mem)
    cases wide with
    | nil =>
      obtain rfl : gap = [] := List.sublist_nil.1 sub
      have ne : x.text ≠ [] := (edges ends).1
      simp only [List.nil_append, List.head?_append_of_ne_nil _ ne]
      exact fun c => .inr
    | cons d wide =>
      intro c mem
      cases mem
      exact .inl (layout d List.mem_cons_self)

/-- In a wider text lie tokens that say the same. -/
theorem Spaced.widened (h : Spaced offset t ts) (w : Widened ts t wide) (place : Nat) :
    ∃ us, Spaced place wide us ∧ ts.map (·.lexeme) = us.map (·.lexeme) := by
  induction w generalizing offset place with
  | nil layout _ => exact ⟨[], .nil layout, rfl⟩
  | @cons x ts gap wide rest rest' layout sub w ih =>
    obtain ⟨ends, spaced⟩ := h.behind fun c mem => layout c (sub.subset mem)
    let y : Token := ⟨x.lexeme, place + wide.width⟩
    obtain ⟨us, spaced', same⟩ := ih spaced y.stop
    refine ⟨y :: us, ?_, congrArg (x.lexeme :: ·) same⟩
    exact .cons (t := y) layout rfl (ends.of_head (w.head spaced)) spaced'

end Token

/-- Rolls with tokens that say the same are read alike. -/
theorem parse_agrees {roll wide : Text} {ts us : List Token} (scan : Token.scan roll = .ok ts)
    (scan' : Token.scan wide = .ok us) (same : ts.map (·.lexeme) = us.map (·.lexeme)) :
    Agrees Reading.SameContents (parse roll) (parse wide) := by
  unfold parse
  rw [scan, scan']
  exact (Reading.feedAll_agrees .start same).bind fun _ _ h => h.finish

/-- Blanks around its tokens do not matter to a roll: it is read to the same expressions with the
same damage types, or rejected for the same cause, and worked out to the same text at every rank. -/
theorem parse_widened {roll wide : Text} {ts : List Token} (scan : Token.scan roll = .ok ts)
    (h : Token.Widened ts roll wide) :
    ((∃ terms, parse wide = .ok terms) ↔ ∃ terms, parse roll = .ok terms) ∧
    (∀ terms terms', parse roll = .ok terms → parse wide = .ok terms' →
      terms'.map Term.content = terms.map Term.content) ∧
    (∀ f f', parse roll = .error f → parse wide = .error f' → f'.cause = f.cause) ∧
    ∀ (rank : Rank) (text : Text),
      (evaluate rank wide).answer = .ok text ↔ (evaluate rank roll).answer = .ok text := by
  obtain ⟨us, spaced, same⟩ := (Token.scan_ok_iff.1 scan).widened h 0
  have scan' := Token.scan_ok_iff.2 spaced
  have agrees := parse_agrees scan scan' same
  have lexemes : Token.lexemes wide = Token.lexemes roll := by
    rw [Token.lexemes_eq_some_iff.2 ⟨us, scan', rfl⟩, Token.lexemes_eq_some_iff.2 ⟨ts, scan, same⟩]
  refine ⟨?_, ?_, ?_, fun rank text => ?_⟩
  · generalize parse roll = x, parse wide = y at agrees
    cases agrees <;> simp
  · rintro terms terms' e e'
    rw [e, e'] at agrees
    cases agrees with
    | ok same => exact same.symm
  · rintro f f' e e'
    rw [e, e'] at agrees
    cases agrees with
    | error same => exact same.symm
  · rw [evaluate_ok_iff_damage, evaluate_ok_iff_damage, lexemes]

/-- A die size may stand apart from the count in front of it, and a damage type from its roll. -/
theorem spaced_die :
    (evaluate {} " ( 1 ) d4 [fire] ".toList).answer = .ok "1d4 fire".toList := by
  have close : (evaluate {} "(1)d4[fire]".toList).answer = .ok "1d4 fire".toList := by
    decide +kernel
  have scan : Token.scan "(1)d4[fire]".toList = .ok [⟨.opening, 0⟩, ⟨.atom "1".toList, 1⟩,
      ⟨.closing, 2⟩, ⟨.atom "d4".toList, 3⟩, ⟨.damageType "fire".toList, 5⟩] := by
    decide +kernel
  have blank : Layout [' '] := by simp [Layout, Text.isLayout]
  have put {x : Token} {ts : List Token} {rest rest' : Text} (h : Token.Widened ts rest rest') :
      Token.Widened (x :: ts) (x.text ++ rest) (' ' :: (x.text ++ rest')) :=
    .cons blank (List.nil_sublist _) h
  have wider : Token.Widened [⟨.opening, 0⟩, ⟨.atom "1".toList, 1⟩, ⟨.closing, 2⟩,
      ⟨.atom "d4".toList, 3⟩, ⟨.damageType "fire".toList, 5⟩] "(1)d4[fire]".toList
      " ( 1 ) d4 [fire] ".toList :=
    put (put (put (put (put (.nil blank (List.nil_sublist _))))))
  exact ((parse_widened scan wider).2.2.2 {} _).2 close

end RulesText.Roll
