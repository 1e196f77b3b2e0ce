/-
Every roll of the grammar is read, and to the tree that the grammar gives it. A word of the grammar
is followed through the reading; behind it some operators may still wait, which `Pending` describes.
-/
import RulesText.Proofs.Roll.Grammar
import RulesText.Proofs.Roll.Steps

namespace RulesText.Roll.Reading

open Grammar

variable {source : Text} {r s : Reading} {t : Token} {ts : List Token}

/-! ## A word behind a reading -/

/-- A reading that takes an operand next. -/
structure Ready (r : Reading) : Prop where
  due : r.awaitsOperand = true
  callee : r.callee = none
  unclosed : r.afterDamageType = false

/-- The reading `s` is `r` with an operand behind it, of which the marks `m` and the operands `o`
are still to be joined. -/
structure Grown (r : Reading) (m : List Mark) (o : List Tree) (s : Reading) : Prop where
  marks : s.marks = m ++ r.marks
  operands : s.operands = o ++ r.operands
  terms : s.terms = r.terms
  due : s.awaitsOperand = false
  callee : s.callee = none
  ends : ∃ t, s.last = some t ∧ ((∃ a, t.lexeme = .atom a) ∨ t.lexeme = .closing)

theorem feedAll_cons_ok (first : r.feed source t = .ok s) {q : Reading}
    (rest : feedAll source s ts = .ok q) : feedAll source r (t :: ts) = .ok q := by
  rw [feedAll, first]
  exact rest

theorem feedAll_append_ok (first : feedAll source r ts = .ok s) {us : List Token} {q : Reading}
    (rest : feedAll source s us = .ok q) : feedAll source r (ts ++ us) = .ok q := by
  rw [feedAll_append, first]
  exact rest

/-- An operand behind a reading that has itself more marks and operands than `r`. -/
theorem Grown.behind {q : Reading} {m n : List Mark} {o p : List Tree} (g : Grown q m o s)
    (marks : q.marks = n ++ r.marks) (operands : q.operands = p ++ r.operands)
    (terms : q.terms = r.terms) : Grown r (m ++ n) (o ++ p) s where
  marks := by rw [g.marks, marks, List.append_assoc]
  operands := by rw [g.operands, operands, List.append_assoc]
  terms := g.terms.trans terms
  due := g.due
  callee := g.callee
  ends := g.ends

theorem Grown.unclosed {m : List Mark} {o : List Tree} (g : Grown r m o s) :
    s.afterDamageType = false := by
  obtain ⟨t, last, ⟨a, ht⟩ | ht⟩ := g.ends
  · exact unclosed_of_last last (by simp [ht])
  · exact unclosed_of_last last (by simp [ht])

/-! ## Single tokens -/

section Tokens

variable (source)

theorem feed_leaf (ready : Ready r) {a : Text} (ht : t.lexeme = .atom a)
    (ha : Builtin.ofName? a = none) :
    ∃ s, r.feed source t = .ok s ∧ Grown r [] [Tree.leaf a] s := by
  have step : (r.extend t).handled source t = .ok { r.extend t with
      operands := Tree.leaf a :: r.operands, awaitsOperand := false } := by
    simp only [handled, ht]
    exact atom_ok_iff.2 (.inr (.inl ⟨by simp [ready.due], ha, by simp⟩))
  refine ⟨_, feed_ok_iff.2 ⟨.inl ready.callee, .inl ready.unclosed, _, step, rfl⟩, ?_⟩
  exact ⟨by simp, by simp, by simp, rfl, by simp [ready.callee],
    ⟨_, rfl, .inl ⟨_, ht⟩⟩⟩

theorem feed_die {u : Tree} (g : Grown r [] [u] s)
    (hc : s.last.map (·.lexeme) = some .closing) {a : Text} (ht : t.lexeme = .atom a)
    (ha : Tree.isDie a = true) :
    ∃ q, s.feed source t = .ok q ∧ Grown r [] [.dice u a] q := by
  have step : (s.extend t).handled source t = .ok { s.extend t with
      operands := .dice u a :: r.operands } := by
    simp only [handled, ht]
    exact atom_ok_iff.2 (.inr (.inr ⟨by simp [g.due], by simpa using hc, ha, u, r.operands,
      by simp [g.operands], rfl⟩))
  refine ⟨_, feed_ok_iff.2 ⟨.inl g.callee, .inl g.unclosed, _, step, rfl⟩, ?_⟩
  exact ⟨by simp [g.marks], by simp, by simp [g.terms], by simp [g.due], by simp [g.callee],
    ⟨_, rfl, .inl ⟨_, ht⟩⟩⟩

theorem feed_operator {m : List Mark} {o : List Tree} {u : Tree} {op : Operator}
    (g : Grown r m o s) (pending : Pending op.strength m o [u]) (stops : Stops op.strength r.marks)
    (ht : t.lexeme = .operator op) :
    ∃ q, s.feed source t = .ok q ∧ Ready q ∧ q.marks = .operator op :: r.marks ∧
      q.operands = u :: r.operands ∧ q.terms = r.terms := by
  have settled := pending.settled (p := r.operands) t.fault
    (fun top => decide_eq_true_iff.symm) stops
  have step : (s.extend t).handled source t = .ok { s.extend t with
      marks := .operator op :: r.marks, operands := u :: r.operands, awaitsOperand := true } := by
    simp only [handled, ht]
    exact operator_ok_iff.2
      ⟨by simp [g.due], _, _, by simpa [g.marks, g.operands] using settled, rfl⟩
  refine ⟨_, feed_ok_iff.2 ⟨.inl g.callee, .inl g.unclosed, _, step, rfl⟩, ?_, rfl, rfl,
    by simp [g.terms]⟩
  exact ⟨rfl, by simp [g.callee], unclosed_of_last rfl (by simp [ht])⟩

/-- A group opens, behind the name of the function that it calls if it calls one. -/
theorem feed_opening (due : r.awaitsOperand = true) (unclosed : r.afterDamageType = false)
    (ht : t.lexeme = .opening) :
    ∃ q, r.feed source t = .ok q ∧ Ready q ∧
      q.marks = .group (r.callee.map (·.1)) r.operands.length t.offset :: r.marks ∧
      q.operands = r.operands ∧ q.terms = r.terms := by
  have step : (r.extend t).handled source t = .ok { r.extend t with
      marks := .group (r.callee.map (·.1)) r.operands.length t.offset :: r.marks
      callee := none } := by
    simp only [handled, ht]
    exact opening_ok_iff.2 ⟨by simp [due], by simp⟩
  refine ⟨_, feed_ok_iff.2 ⟨.inr ht, .inl unclosed, _, step, rfl⟩, ?_, rfl, by simp, by simp⟩
  exact ⟨by simp [due], rfl, unclosed_of_last rfl (by simp [ht])⟩

theorem feed_name (ready : Ready r) {f : Builtin} (ht : t.lexeme = .atom f.name) :
    ∃ q, r.feed source t = .ok q ∧ q.awaitsOperand = true ∧ q.afterDamageType = false ∧
      q.callee = some (f, t.offset) ∧ q.marks = r.marks ∧ q.operands = r.operands ∧
      q.terms = r.terms := by
  have step : (r.extend t).handled source t = .ok { r.extend t with
      callee := some (f, t.offset) } := by
    simp only [handled, ht]
    exact atom_ok_iff.2 (.inl ⟨by simp [ready.due], f, Builtin.ofName?_name f, rfl⟩)
  refine ⟨_, feed_ok_iff.2 ⟨.inl ready.callee, .inl ready.unclosed, _, step, rfl⟩, ?_⟩
  exact ⟨by simp [ready.due], unclosed_of_last rfl (by simp [ht]), rfl, by simp, by simp, by simp⟩

section Group

variable {q : Reading} {m n : List Mark} {o us : List Tree} {base offset : Nat}

/-- Where a group is on top, settling a pending operand leads to it. -/
theorem settle_to_group {f : Option Builtin} (hq : q.marks = .group f base offset :: n)
    (g : Grown q m o s) (pending : Pending 1 m o us) (spot : Cause → Fault) :
    settle spot (fun _ => true) s.marks s.operands = .ok (q.marks, us ++ q.operands) := by
  rw [g.marks, g.operands]
  exact pending.settled_all spot (hq ▸ stops_group 1 f base offset n)

theorem feed_comma {f : Builtin} (hq : q.marks = .group (some f) base offset :: n)
    (g : Grown q m o s) (pending : Pending 1 m o us) (ht : t.lexeme = .comma) :
    ∃ v, s.feed source t = .ok v ∧ Ready v ∧ v.marks = q.marks ∧ v.operands = us ++ q.operands ∧
      v.terms = q.terms := by
  have settled := settle_to_group hq g pending t.fault
  have step : (s.extend t).handled source t = .ok { s.extend t with
      marks := q.marks, operands := us ++ q.operands, awaitsOperand := true } := by
    simp only [handled, ht]
    exact comma_ok_iff.2 (.inr ⟨by simp [g.marks, hq], by simp [g.due], _, _,
      by simpa using settled, .inl ⟨f, base, offset, n, hq, rfl⟩⟩)
  refine ⟨_, feed_ok_iff.2 ⟨.inl g.callee, .inl g.unclosed, _, step, rfl⟩, ?_, rfl, rfl,
    by simp [g.terms]⟩
  exact ⟨rfl, by simp [g.callee], unclosed_of_last rfl (by simp [ht])⟩

theorem feed_closing_parentheses {u : Tree}
    (hq : q.marks = .group none r.operands.length offset :: r.marks)
    (ho : q.operands = r.operands) (hr : q.terms = r.terms) (g : Grown q m o s)
    (pending : Pending 1 m o [u]) (ht : t.lexeme = .closing) :
    ∃ v, s.feed source t = .ok v ∧ Grown r [] [u] v ∧ v.last.map (·.lexeme) = some .closing := by
  have settled := settle_to_group hq g pending t.fault
  have step : (s.extend t).handled source t = .ok { s.extend t with
      marks := r.marks, operands := u :: r.operands } := by
    simp only [handled, ht]
    exact closing_ok_iff.2 ⟨by simp [g.due], _, _, by simpa using settled,
      .inr ⟨_, offset, _, hq, by simp [ho], by simp [ho]⟩⟩
  refine ⟨_, feed_ok_iff.2 ⟨.inl g.callee, .inl g.unclosed, _, step, rfl⟩, ?_, by simp [ht]⟩
  exact ⟨rfl, rfl, by simp [g.terms, hr], by simp [g.due], by simp [g.callee],
    ⟨_, rfl, .inr ht⟩⟩

theorem feed_closing_call {f : Builtin}
    (hq : q.marks = .group (some f) r.operands.length offset :: r.marks)
    (ho : q.operands = r.operands) (hr : q.terms = r.terms) (g : Grown q m o s)
    (pending : Pending 1 m o us) (arity : us.length = f.arity) (ht : t.lexeme = .closing) :
    ∃ v, s.feed source t = .ok v ∧ Grown r [] [.call f us.reverse] v ∧
      v.last.map (·.lexeme) = some .closing := by
  have settled := settle_to_group hq g pending t.fault
  have step : (s.extend t).handled source t = .ok { s.extend t with
      marks := r.marks, operands := .call f us.reverse :: r.operands } := by
    simp only [handled, ht]
    exact closing_ok_iff.2 ⟨by simp [g.due], _, _, by simpa using settled,
      .inl ⟨f, _, offset, _, hq, by simp [ho, arity], by simp [ho]⟩⟩
  refine ⟨_, feed_ok_iff.2 ⟨.inl g.callee, .inl g.unclosed, _, step, rfl⟩, ?_, by simp [ht]⟩
  exact ⟨rfl, rfl, by simp [g.terms, hr], by simp [g.due], by simp [g.callee],
    ⟨_, rfl, .inr ht⟩⟩

end Group

end Tokens

/-! ## Words of the grammar -/

mutual

theorem group_run {w : List Lexeme} {u : Tree} : Group w u → ∀ ⦃r : Reading⦄ ⦃ts : List Token⦄,
    Ready r → ts.map (·.lexeme) = w →
    ∃ s, feedAll source r ts = .ok s ∧ Grown r [] [u] s ∧ s.last.map (·.lexeme) = some .closing
  | .parentheses sum => by
    intro r ts ready hw
    obtain ⟨first, rest, rfl, hfirst, hrest⟩ := List.map_eq_cons_iff.1 hw
    obtain ⟨body, last, rfl, hbody, hlast⟩ := List.map_eq_append_iff.1 hrest
    obtain ⟨final, rfl, hfinal⟩ := List.map_eq_singleton_iff.1 hlast
    obtain ⟨q, feedFirst, readyQ, marks, operands, terms⟩ :=
      feed_opening source ready.due ready.unclosed hfirst
    rw [ready.callee] at marks
    obtain ⟨m, o, s, feedBody, grown, pending⟩ :=
      sum_run sum readyQ (marks ▸ stops_group 1 _ _ _ _) hbody
    obtain ⟨v, feedLast, grownV, closing⟩ :=
      feed_closing_parentheses source marks operands terms grown pending hfinal
    exact ⟨v, feedAll_cons_ok feedFirst (feedAll_append_ok feedBody (feedAll_cons_ok feedLast rfl)),
      grownV, closing⟩
  | .call arguments arity => by
    intro r ts ready hw
    obtain ⟨name, rest, rfl, hname, hrest⟩ := List.map_eq_cons_iff.1 hw
    obtain ⟨first, rest, rfl, hfirst, hrest⟩ := List.map_eq_cons_iff.1 hrest
    obtain ⟨body, last, rfl, hbody, hlast⟩ := List.map_eq_append_iff.1 hrest
    obtain ⟨final, rfl, hfinal⟩ := List.map_eq_singleton_iff.1 hlast
    obtain ⟨p, feedName, due, unclosed, callee, marksP, operandsP, termsP⟩ :=
      feed_name source ready hname
    obtain ⟨q, feedFirst, readyQ, marks, operands, terms⟩ :=
      feed_opening source due unclosed hfirst
    rw [callee, marksP, operandsP] at marks
    obtain ⟨m, o, s, feedBody, grown, pending⟩ := arguments_run arguments readyQ marks hbody
    obtain ⟨v, feedLast, grownV, closing⟩ :=
      feed_closing_call source marks (operands.trans operandsP) (terms.trans termsP)
        grown pending (by simpa using arity) hfinal
    -- The arguments lie on the stack newest first.
    rw [List.reverse_reverse] at grownV
    exact ⟨v, feedAll_cons_ok feedName (feedAll_cons_ok feedFirst
      (feedAll_append_ok feedBody (feedAll_cons_ok feedLast rfl))), grownV, closing⟩

theorem factor_run {w : List Lexeme} {u : Tree} : Factor w u → ∀ ⦃r : Reading⦄ ⦃ts : List Token⦄,
    Ready r → ts.map (·.lexeme) = w →
    ∃ s, feedAll source r ts = .ok s ∧ Grown r [] [u] s
  | .leaf name => by
    intro r ts ready hw
    obtain ⟨t, rfl, ht⟩ := List.map_eq_singleton_iff.1 hw
    obtain ⟨s, step, grown⟩ := feed_leaf source ready ht name
    exact ⟨s, feedAll_cons_ok step rfl, grown⟩
  | .group group => by
    intro r ts ready hw
    obtain ⟨s, run, grown, -⟩ := group_run group ready hw
    exact ⟨s, run, grown⟩
  | .dice group die => by
    intro r ts ready hw
    obtain ⟨body, last, rfl, hbody, hlast⟩ := List.map_eq_append_iff.1 hw
    obtain ⟨final, rfl, hfinal⟩ := List.map_eq_singleton_iff.1 hlast
    obtain ⟨s, run, grown, closing⟩ := group_run group ready hbody
    obtain ⟨q, step, grownQ⟩ := feed_die source grown closing hfinal die
    exact ⟨q, feedAll_append_ok run (feedAll_cons_ok step rfl), grownQ⟩

theorem product_run {w : List Lexeme} {u : Tree} :
    Product w u → ∀ ⦃r : Reading⦄ ⦃ts : List Token⦄,
    Ready r → Stops 2 r.marks → ts.map (·.lexeme) = w →
    ∃ m o s, feedAll source r ts = .ok s ∧ Grown r m o s ∧ Pending 2 m o [u]
  | .factor factor => by
    intro r ts ready _ hw
    obtain ⟨s, run, grown⟩ := factor_run factor ready hw
    exact ⟨[], _, s, run, grown, .refl 2 _⟩
  | .more product op factor => by
    intro r ts ready stops hw
    obtain ⟨left, rest, rfl, hleft, hrest⟩ := List.map_eq_append_iff.1 hw
    obtain ⟨t, right, rfl, ht, hright⟩ := List.map_eq_cons_iff.1 hrest
    obtain ⟨m, o, s, feedLeft, grown, pending⟩ := product_run product ready stops hleft
    have strength := strength_product.2 op
    rw [← strength] at pending stops
    obtain ⟨q, step, readyQ, marks, operands, terms⟩ :=
      feed_operator source grown pending stops ht
    obtain ⟨v, feedRight, grownV⟩ := factor_run factor readyQ hright
    exact ⟨_, _, v, feedAll_append_ok feedLeft (feedAll_cons_ok step feedRight),
      grownV.behind (n := [_]) (p := [_]) marks operands terms,
      (Pending.refl 2 _).join (Nat.le_refl 2) (Nat.le_of_eq strength.symm)⟩

theorem sum_run {w : List Lexeme} {u : Tree} : Sum w u → ∀ ⦃r : Reading⦄ ⦃ts : List Token⦄,
    Ready r → Stops 1 r.marks → ts.map (·.lexeme) = w →
    ∃ m o s, feedAll source r ts = .ok s ∧ Grown r m o s ∧ Pending 1 m o [u]
  | .product product => by
    intro r ts ready stops hw
    obtain ⟨m, o, s, run, grown, pending⟩ :=
      product_run product ready (fun op rest h => Nat.lt_succ_of_lt (stops op rest h)) hw
    exact ⟨m, o, s, run, grown, pending.mono (by decide)⟩
  | .more sum op product => by
    intro r ts ready stops hw
    obtain ⟨left, rest, rfl, hleft, hrest⟩ := List.map_eq_append_iff.1 hw
    obtain ⟨t, right, rfl, ht, hright⟩ := List.map_eq_cons_iff.1 hrest
    obtain ⟨m, o, s, feedLeft, grown, pending⟩ := sum_run sum ready stops hleft
    have strength := strength_sum.2 op
    rw [← strength] at pending stops
    obtain ⟨q, step, readyQ, marks, operands, terms⟩ :=
      feed_operator source grown pending stops ht
    -- The operator that was just taken is weaker than all in the product behind it.
    have stopsQ : Stops 2 q.marks := by
      rintro top rest h
      rw [marks] at h
      cases h
      omega
    obtain ⟨n, p, v, feedRight, grownV, pendingV⟩ := product_run product readyQ stopsQ hright
    exact ⟨_, _, v, feedAll_append_ok feedLeft (feedAll_cons_ok step feedRight),
      grownV.behind (n := [_]) (p := [_]) marks operands terms,
      pendingV.join (by decide) (Nat.le_of_eq strength.symm)⟩

theorem arguments_run {w : List Lexeme} {us : List Tree} :
    Arguments w us → ∀ ⦃r : Reading⦄ ⦃ts : List Token⦄
      ⦃f : Builtin⦄ ⦃base offset : Nat⦄ ⦃n : List Mark⦄,
    Ready r → r.marks = .group (some f) base offset :: n → ts.map (·.lexeme) = w →
    ∃ m o s, feedAll source r ts = .ok s ∧ Grown r m o s ∧ Pending 1 m o us.reverse
  | .one sum => by
    intro r ts f base offset n ready hr hw
    exact sum_run sum ready (hr ▸ stops_group 1 _ _ _ _) hw
  | @Arguments.more _ _ vs _ arguments sum => by
    intro r ts f base offset n ready hr hw
    obtain ⟨left, rest, rfl, hleft, hrest⟩ := List.map_eq_append_iff.1 hw
    obtain ⟨t, right, rfl, ht, hright⟩ := List.map_eq_cons_iff.1 hrest
    obtain ⟨m, o, s, feedLeft, grown, pending⟩ := arguments_run arguments ready hr hleft
    obtain ⟨q, step, readyQ, marks, operands, terms⟩ :=
      feed_comma source hr grown pending ht
    obtain ⟨k, p, v, feedRight, grownV, pendingV⟩ :=
      sum_run sum readyQ (by rw [marks, hr]; exact stops_group 1 _ _ _ _) hright
    -- The comma has joined what was pending before it, and those operands stay where they are.
    have grownAll := grownV.behind (n := []) marks operands terms
    rw [List.append_nil] at grownAll
    rw [List.reverse_append]
    exact ⟨k, p ++ vs.reverse, v, feedAll_append_ok feedLeft (feedAll_cons_ok step feedRight),
      grownAll, pendingV.push⟩

end

/-! ## Terms -/

/-- A reading of the terms `ps` that takes another one. -/
structure Fresh (r : Reading) (ps : List (Tree × Option Text)) : Prop where
  ready : Ready r
  marks : r.marks = []
  operands : r.operands = []
  terms : r.terms.reverse.map Term.content = ps

/-- A reading of the terms `ps`, the last of which waits for a comma or the end unless its damage
type has closed it. -/
inductive Ended (r : Reading) : List (Tree × Option Text) → Prop
  | waiting {q : Reading} {ps : List (Tree × Option Text)} {m : List Mark} {o : List Tree}
      {u : Tree} : Fresh q ps → Grown q m o r → Pending 1 m o [u] → Ended r (ps ++ [(u, none)])
  | typed : r.awaitsOperand = true → r.callee = none → r.marks = [] → r.operands = [] →
      (∃ t type, r.last = some t ∧ t.lexeme = .damageType type) → r.terms ≠ [] →
      Ended r (r.terms.reverse.map Term.content)

theorem settle_to_end {ps : List (Tree × Option Text)} {q : Reading} {m : List Mark}
    {o us : List Tree} (fresh : Fresh q ps) (g : Grown q m o r) (pending : Pending 1 m o us)
    (spot : Cause → Fault) :
    settle spot (fun _ => true) r.marks r.operands = .ok ([], us) := by
  rw [g.marks, g.operands, fresh.marks, fresh.operands, pending.settled_all spot (stops_nil 1),
    List.append_nil]

theorem open_of_settled {spot : Cause → Fault} {u : Tree}
    (settled : settle spot (fun _ => true) r.marks r.operands = .ok ([], [u])) :
    ¬(r.operands = [] ∧ r.marks = []) := by
  rintro ⟨ho, hm⟩
  rw [ho, hm] at settled
  cases settled

variable (source) in
theorem feed_comma_term {ps : List (Tree × Option Text)} (ended : Ended r ps)
    (ht : t.lexeme = .comma) : ∃ q, r.feed source t = .ok q ∧ Fresh q ps := by
  cases ended with
  | @waiting q ps m o u fresh g pending =>
    have settled := settle_to_end fresh g pending t.fault
    have open_term := open_of_settled settled
    have step : (r.extend t).handled source t = .ok { r.extend t with
        marks := []
        operands := []
        terms := (r.extend t).closed source t.offset none u :: r.terms
        awaitsOperand := true
        start := none } := by
      simp only [handled, ht]
      exact comma_ok_iff.2 (.inr ⟨by simpa using open_term, by simp [g.due], _, _,
        by simpa using settled, .inr ⟨rfl, u, rfl, by simp⟩⟩)
    refine ⟨_, feed_ok_iff.2 ⟨.inl g.callee, .inl g.unclosed, _, step, rfl⟩, ?_, rfl, rfl, ?_⟩
    · exact ⟨rfl, by simp [g.callee], unclosed_of_last rfl (by simp [ht])⟩
    · simp [g.terms, ← fresh.terms, Term.content, closed]
  | typed due callee marks operands last terms =>
    obtain ⟨τ, type, last, hτ⟩ := last
    have step : (r.extend t).handled source t = .ok (r.extend t) := by
      simp only [handled, ht]
      exact comma_ok_iff.2 (.inl ⟨by simp [operands], by simp [marks],
        by simpa [afterDamageType_of_last last] using ⟨type, hτ⟩, rfl⟩)
    refine ⟨_, feed_ok_iff.2 ⟨.inl callee, .inr ht, _, step, rfl⟩, ?_, by simp [marks],
      by simp [operands], by simp⟩
    exact ⟨by simp [due], by simp [callee], unclosed_of_last rfl (by simp [ht])⟩

variable (source) in
theorem feed_damageType {ps : List (Tree × Option Text)} {q : Reading} {m : List Mark}
    {o : List Tree} {u : Tree} (fresh : Fresh q ps) (g : Grown q m o r)
    (pending : Pending 1 m o [u]) {type : Text} (ht : t.lexeme = .damageType type) :
    ∃ v, r.feed source t = .ok v ∧ Ended v (ps ++ [(u, some type)]) := by
  have settled := settle_to_end fresh g pending t.fault
  have step : (r.extend t).handled source t = .ok { r.extend t with
      marks := []
      operands := []
      terms := (r.extend t).closed source t.offset (some type) u :: r.terms
      awaitsOperand := true
      start := none } := by
    simp only [handled, ht]
    exact damageType_ok_iff.2 ⟨by simp [g.due], u, by simpa using settled, by simp⟩
  refine ⟨_, feed_ok_iff.2 ⟨.inl g.callee, .inl g.unclosed, _, step, rfl⟩, ?_⟩
  have terms : ps ++ [(u, some type)] =
      ((r.extend t).closed source t.offset (some type) u :: r.terms).reverse.map Term.content := by
    simp [g.terms, ← fresh.terms, Term.content, closed]
  rw [terms]
  exact .typed rfl (by simp [g.callee]) rfl rfl ⟨t, type, rfl, ht⟩ (by simp)

theorem finish_ended {ps : List (Tree × Option Text)} (ended : Ended r ps) :
    ∃ terms, r.finish source = .ok terms ∧ terms.map Term.content = ps := by
  cases ended with
  | @waiting q ps m o u fresh g pending =>
    have settled := settle_to_end fresh g pending fun cause => ⟨cause, [], source.width⟩
    have open_term := open_of_settled settled
    obtain ⟨t, last, ends⟩ := g.ends
    have ended := closeLast_ok_iff.2 (.inr ⟨open_term, g.due, u, settled, rfl⟩)
    refine ⟨_, finish_ok_iff.2 ⟨g.callee, ?_, ended⟩, ?_⟩
    · rintro h
      -- A term ends with an atom or a parenthesis, so not with a comma.
      rcases ends with ⟨a, ht⟩ | ht <;> simp [last, ht] at h
    · simp [g.terms, ← fresh.terms, Term.content, closed]
  | typed due callee marks operands last terms =>
    obtain ⟨t, type, last, ht⟩ := last
    have ended : r.closeLast source = .ok r.terms.reverse :=
      closeLast_ok_iff.2 (.inl ⟨operands, marks, terms, rfl⟩)
    exact ⟨_, finish_ok_iff.2 ⟨callee, by simp [last, ht], ended⟩, rfl⟩

theorem entry_run {w : List Lexeme} {p : Tree × Option Text} (entry : Entry w p)
    {ps : List (Tree × Option Text)} (fresh : Fresh r ps) (hw : ts.map (·.lexeme) = w) :
    ∃ s, feedAll source r ts = .ok s ∧ Ended s (ps ++ [p]) := by
  cases entry with
  | bare sum =>
    obtain ⟨m, o, s, run, grown, pending⟩ :=
      sum_run sum fresh.ready (fresh.marks ▸ stops_nil 1) hw
    exact ⟨s, run, .waiting fresh grown pending⟩
  | typed type sum =>
    obtain ⟨body, last, rfl, hbody, hlast⟩ := List.map_eq_append_iff.1 hw
    obtain ⟨final, rfl, hfinal⟩ := List.map_eq_singleton_iff.1 hlast
    obtain ⟨m, o, s, run, grown, pending⟩ :=
      sum_run sum fresh.ready (fresh.marks ▸ stops_nil 1) hbody
    obtain ⟨v, step, ended⟩ := feed_damageType source fresh grown pending hfinal
    exact ⟨v, feedAll_append_ok run (feedAll_cons_ok step rfl), ended⟩

theorem damage_run {w : List Lexeme} {ps : List (Tree × Option Text)} (damage : Damage w ps) :
    ∀ {ts : List Token}, ts.map (·.lexeme) = w →
      ∃ s, feedAll source {} ts = .ok s ∧ Ended s ps := by
  induction damage with
  | one entry =>
    intro ts hw
    exact entry_run entry ⟨⟨rfl, rfl, rfl⟩, rfl, rfl, rfl⟩ hw
  | more _ entry ih =>
    intro ts hw
    obtain ⟨left, rest, rfl, hleft, hrest⟩ := List.map_eq_append_iff.1 hw
    obtain ⟨t, right, rfl, ht, hright⟩ := List.map_eq_cons_iff.1 hrest
    obtain ⟨s, runLeft, ended⟩ := ih hleft
    obtain ⟨q, step, fresh⟩ := feed_comma_term source ended ht
    obtain ⟨v, runRight, endedV⟩ := entry_run entry fresh hright
    exact ⟨v, feedAll_append_ok runLeft (feedAll_cons_ok step runRight), endedV⟩

end RulesText.Roll.Reading
