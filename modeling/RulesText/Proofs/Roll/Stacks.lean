/-
What the two stacks hold while a roll is read. `Slot` is the place of an operand that is due: below
it lie the terms of sums and factors of products that wait for it, and the groups that are open.
`Reading.Stage` ties a reading to the lexemes of its open term, and `Reading.Traced` to all the
tokens that it has taken.
-/
import RulesText.Proofs.Roll.Grammar
import RulesText.Proofs.Roll.Steps

namespace RulesText.Roll

open Grammar

/-! ## Operators that wait -/

/-- The beginning of a sum, up to the product that is due. -/
inductive Addends : List Lexeme → List Mark → List Tree → Prop
  | none : Addends [] [] []
  | some {v : List Lexeme} {l : Tree} {op : Operator} :
      Sum v l → op = .add ∨ op = .subtract →
      Addends (v ++ [.operator op]) [.operator op] [l]

/-- The beginning of a sum, up to the factor that is due. -/
inductive Factors : List Lexeme → List Mark → List Tree → Prop
  | none {w : List Lexeme} {m : List Mark} {o : List Tree} : Addends w m o → Factors w m o
  | some {v w : List Lexeme} {m : List Mark} {o : List Tree} {l : Tree} {op : Operator} :
      Addends w m o → Product v l → op = .multiply ∨ op = .divide →
      Factors (w ++ (v ++ [.operator op])) (.operator op :: m) (l :: o)

/-- The beginning of some arguments, up to the sum that is due; the arguments newest first. -/
inductive Given : List Lexeme → List Tree → Prop
  | none : Given [] []
  | some {w : List Lexeme} {ts : List Tree} : Arguments w ts → Given (w ++ [.comma]) ts.reverse

theorem Given.arguments {v w : List Lexeme} {ts : List Tree} {t : Tree} (h : Given v ts)
    (sum : Sum w t) : Arguments (v ++ w) (t :: ts).reverse := by
  cases h with
  | none => exact .one sum
  | some arguments =>
    rw [List.append_assoc, List.reverse_cons, List.reverse_reverse]
    exact .more arguments sum

theorem Given.comma {v w : List Lexeme} {ts : List Tree} {t : Tree} (h : Given v ts)
    (sum : Sum w t) : Given (v ++ (w ++ [.comma])) (t :: ts) := by
  rw [← List.reverse_reverse (t :: ts), ← List.append_assoc]
  exact .some (h.arguments sum)

mutual

/-- The beginning of a term, up to the factor that is due, and the stacks behind it. -/
inductive Slot : List Lexeme → List Mark → List Tree → Prop
  | mk {v w : List Lexeme} {m n : List Mark} {o p : List Tree} :
      Open w m o → Factors v n p → Slot (w ++ v) (n ++ m) (p ++ o)

/-- The beginning of a term, up to the sum that is due, and the stacks behind it. -/
inductive Open : List Lexeme → List Mark → List Tree → Prop
  | term : Open [] [] []
  | parentheses {w : List Lexeme} {m : List Mark} {o : List Tree} {offset : Nat} :
      Slot w m o → Open (w ++ [.opening]) (.group none o.length offset :: m) o
  | call {v w : List Lexeme} {m : List Mark} {o ts : List Tree} {f : Builtin} {offset : Nat} :
      Slot w m o → Given v ts →
      Open (w ++ .atom f.name :: .opening :: v) (.group (some f) o.length offset :: m) (ts ++ o)

end

/-- A factor closes the product that waits for it, of which the marks `k` and operands `j` are. -/
theorem Factors.product {v x : List Lexeme} {n : List Mark} {p : List Tree} {u : Tree}
    (h : Factors v n p) (factor : Factor x u) :
    ∃ w y n' p' k j t, v ++ x = w ++ y ∧ Addends w n' p' ∧ Product y t ∧ n = k ++ n' ∧
      u :: p = j ++ p' ∧ Reading.Pending 2 k j [t] := by
  cases h with
  | none addends =>
    exact ⟨v, x, n, p, [], [u], u, rfl, addends, .factor factor, rfl, rfl, .refl 2 _⟩
  | @some v w m o l op addends product hop =>
    refine ⟨w, v ++ [.operator op] ++ x, m, o, [] ++ [.operator op], [u] ++ [l], .binary op l u,
      List.append_assoc _ _ _, addends, ?_, rfl, rfl, ?_⟩
    · rw [List.append_assoc]
      exact .more product hop factor
    · exact (Reading.Pending.refl 2 [u]).join (Nat.le_refl 2)
        (Nat.le_of_eq (strength_product.2 hop).symm)

/-- A factor closes the sum that waits for it. -/
theorem Factors.sum {v x : List Lexeme} {n : List Mark} {p : List Tree} {u : Tree}
    (h : Factors v n p) (factor : Factor x u) :
    ∃ t, Sum (v ++ x) t ∧ Reading.Pending 1 n (u :: p) [t] := by
  obtain ⟨w, y, n', p', k, j, t, hw, addends, product, rfl, hp, pending⟩ := h.product factor
  rw [hw, hp]
  cases addends with
  | none => exact ⟨t, .product product, by simpa using pending.mono (by decide)⟩
  | some sum op =>
    refine ⟨_, ?_, pending.join (by decide) (Nat.le_of_eq (strength_sum.2 op).symm)⟩
    rw [List.append_assoc]
    exact .more sum op product

theorem Open.stops {w : List Lexeme} {m : List Mark} {o : List Tree} (h : Open w m o)
    (low : Nat) : Reading.Stops low m := by
  cases h with
  | term => exact Reading.stops_nil low
  | parentheses _ => exact Reading.stops_group low _ _ _ _
  | call _ _ => exact Reading.stops_group low _ _ _ _

theorem Addends.stops {v w : List Lexeme} {n m : List Mark} {p o : List Tree} (h : Addends v n p)
    (opened : Open w m o) : Reading.Stops 2 (n ++ m) := by
  cases h with
  | none => exact opened.stops 2
  | some _ op =>
    intro top rest h
    cases h
    rw [strength_sum.2 op]
    decide

/-- An open group or term is a slot of its own. -/
theorem Open.slot {w : List Lexeme} {m : List Mark} {o : List Tree} (h : Open w m o) :
    Slot w m o := by
  simpa using Slot.mk h (.none .none)

theorem Slot.eq_nil {w : List Lexeme} (h : Slot w [] []) : w = [] := by
  generalize hm : ([] : List Mark) = m at h
  generalize ho : ([] : List Tree) = o at h
  cases h with
  | mk opened factors =>
    obtain ⟨rfl, rfl⟩ := List.append_eq_nil_iff.1 hm.symm
    cases opened with
    | term =>
      cases factors with
      | none addends => cases addends; rfl

/-- A factor in a slot closes a sum of the innermost group or term. -/
theorem Slot.settle {w x : List Lexeme} {m : List Mark} {o : List Tree} {u : Tree}
    (h : Slot w m o) (factor : Factor x u) (spot : Cause → Fault) :
    ∃ v y n p t, w ++ x = v ++ y ∧ Open v n p ∧ Sum y t ∧
      Reading.settle spot (fun _ => true) m (u :: o) = .ok (n, t :: p) := by
  cases h with
  | mk opened factors =>
    obtain ⟨t, sum, pending⟩ := factors.sum factor
    exact ⟨_, _, _, _, t, List.append_assoc _ _ _, opened, sum,
      pending.settled_all spot (opened.stops 1)⟩

/-- An operator behind a factor leaves a slot for its right operand. -/
theorem Slot.operator {w x : List Lexeme} {m : List Mark} {o : List Tree} {u : Tree}
    (h : Slot w m o) (factor : Factor x u) (op : Operator) (spot : Cause → Fault) :
    ∃ n p, Reading.settle spot (fun top => op.strength ≤ top.strength) m (u :: o) = .ok (n, p) ∧
      Slot (w ++ x ++ [.operator op]) (.operator op :: n) p := by
  cases h with
  | @mk v w' m n o p opened factors =>
    have binds : ∀ top : Operator, op.strength ≤ top.strength ↔
        decide (op.strength ≤ top.strength) = true := fun top => decide_eq_true_iff.symm
    -- A strong operator joins the product in front of it, a weak one the whole sum.
    rcases (strength_cases op).symm with hop | hop
    · obtain ⟨y, z, n', p', k, j, t, hw, addends, product, rfl, hp, pending⟩ :=
        factors.product factor
      rw [← hop] at pending
      refine ⟨n' ++ m, t :: (p' ++ o), ?_, ?_⟩
      · rw [List.append_assoc, ← List.cons_append, hp, List.append_assoc]
        exact pending.settled spot binds (hop ▸ addends.stops opened)
      · rw [List.append_assoc w', hw, List.append_assoc, List.append_assoc]
        exact .mk opened (.some addends product (strength_product.1 hop))
    · obtain ⟨t, sum, pending⟩ := factors.sum factor
      rw [← hop] at pending
      refine ⟨_, _, pending.settled spot binds (opened.stops _), ?_⟩
      rw [List.append_assoc w', List.append_assoc]
      exact .mk opened (.none (.some sum (strength_sum.1 hop)))

namespace Reading

/-! ## The open term -/

/-- How a reading stands to the lexemes of its open term. -/
inductive Stage (r : Reading) : List Lexeme → Prop
  /-- An operand is due. -/
  | due {w : List Lexeme} : Slot w r.marks r.operands → r.awaitsOperand = true →
      r.callee = none → Stage r w
  /-- The name of a function was read where an operand is due. -/
  | named {w : List Lexeme} {f : Builtin} {offset : Nat} : Slot w r.marks r.operands →
      r.awaitsOperand = true → r.callee = some (f, offset) → Stage r (w ++ [.atom f.name])
  /-- A factor was read, and only a group can end with a parenthesis. -/
  | read {w x : List Lexeme} {o : List Tree} {u : Tree} : Slot w r.marks o → Factor x u →
      r.operands = u :: o → r.awaitsOperand = false → r.callee = none →
      (r.last.map (·.lexeme) = some .closing → Group x u) → Stage r (w ++ x)

variable {source : Text} {r q : Reading} {t : Token} {w : List Lexeme}

theorem Stage.eq_nil (h : Stage r w) (callee : r.callee = none) (operands : r.operands = [])
    (marks : r.marks = []) : w = [] := by
  cases h with
  | due slot _ _ =>
    rw [operands, marks] at slot
    exact slot.eq_nil
  | named _ _ h => simp [callee] at h
  | read _ _ h _ _ _ => simp [operands] at h

/-- Where no operand is due, the open term ends with a factor. -/
theorem Stage.factor (h : Stage r w) (due : r.awaitsOperand = false) :
    ∃ v x o u, w = v ++ x ∧ Slot v r.marks o ∧ Factor x u ∧ r.operands = u :: o ∧
      r.callee = none ∧ (r.last.map (·.lexeme) = some .closing → Group x u) := by
  cases h with
  | due _ h _ => simp [due] at h
  | named _ h _ => simp [due] at h
  | read slot factor operands _ callee group =>
    exact ⟨_, _, _, _, rfl, slot, factor, operands, callee, group⟩

/-- Where no operand is due, settling all leaves a sum of the innermost group or term. -/
theorem Stage.settled {spot : Cause → Fault} {m : List Mark} {o : List Tree} (h : Stage r w)
    (due : r.awaitsOperand = false)
    (settled : settle spot (fun _ => true) r.marks r.operands = .ok (m, o)) :
    ∃ v y p u, w = v ++ y ∧ Open v m p ∧ Sum y u ∧ o = u :: p ∧ r.callee = none := by
  obtain ⟨w', x, p, u, rfl, slot, factor, operands, callee, -⟩ := h.factor due
  obtain ⟨v, y, n, p, t, hw, opened, sum, settled'⟩ := slot.settle factor spot
  rw [operands, settled'] at settled
  cases settled
  exact ⟨v, y, p, t, hw, opened, sum, rfl, callee⟩

theorem Stage.extend (h : Stage r w) (t : Token) : Stage (r.extend t) w := by
  cases h with
  | due slot due callee =>
    exact .due (by simpa using slot) (by simpa using due) (by simpa using callee)
  | named slot due callee =>
    exact .named (by simpa using slot) (by simpa using due) (by simpa using callee)
  | read slot factor operands due callee group =>
    exact .read (by simpa using slot) factor (by simpa using operands) (by simpa using due)
      (by simpa using callee) (by simpa using group)

theorem Stage.atom {a : Text} (h : Stage r w) (callee : r.callee = none)
    (step : r.atom t a = .ok q) (ht : t.lexeme = .atom a) :
    Stage { q with last := some t } (w ++ [.atom a]) := by
  rcases atom_ok_iff.1 step with ⟨due, f, hf, rfl⟩ | ⟨due, hf, rfl⟩ | ⟨due, hc, die, u, o, ho, rfl⟩
  · cases h with
    | due slot _ _ =>
      rw [← Builtin.name_of_ofName? hf]
      exact .named slot due rfl
    | named _ _ h => simp [callee] at h
    | read _ _ _ h _ _ => simp [due] at h
  · cases h with
    | due slot _ _ => exact .read slot (.leaf hf) rfl rfl callee (by simp [ht])
    | named _ _ h => simp [callee] at h
    | read _ _ _ h _ _ => simp [due] at h
  · obtain ⟨v, x, p, u, rfl, slot, -, operands, -, group⟩ := h.factor due
    -- Behind a parenthesis the last factor is a group, so it may have a die size.
    rw [operands] at ho
    cases ho
    rw [List.append_assoc]
    exact .read slot (.dice (group hc) die) rfl due callee (by simp [ht])

theorem Stage.operator {op : Operator} (h : Stage r w) (step : r.operator t op = .ok q) :
    Stage { q with last := some t } (w ++ [.operator op]) := by
  obtain ⟨due, m, o, settled, rfl⟩ := operator_ok_iff.1 step
  obtain ⟨v, x, p, u, rfl, slot, factor, operands, callee, -⟩ := h.factor due
  obtain ⟨n, p, settled', slot'⟩ := slot.operator factor op t.fault
  rw [operands, settled'] at settled
  cases settled
  exact .due slot' rfl callee

theorem Stage.opening (h : Stage r w) (step : r.opening t = .ok q) :
    Stage { q with last := some t } (w ++ [.opening]) := by
  obtain ⟨due, rfl⟩ := opening_ok_iff.1 step
  cases h with
  | due slot _ callee =>
    rw [callee]
    exact .due (Open.parentheses slot).slot due rfl
  | named slot _ callee =>
    rw [callee, List.append_assoc]
    exact .due (Open.call slot .none).slot due rfl
  | read _ _ _ h _ _ => simp [due] at h

theorem Stage.closing (h : Stage r w) (step : r.closing t = .ok q) :
    Stage { q with last := some t } (w ++ [.closing]) := by
  obtain ⟨due, m, o, settled, step⟩ := closing_ok_iff.1 step
  obtain ⟨v, y, p, u, rfl, opened, sum, rfl, callee⟩ := h.settled due settled
  rcases step with ⟨f, base, offset, rest, rfl, arity, rfl⟩ | ⟨base, offset, rest, rfl, -, rfl⟩
  · cases opened with
    | @call v w m o ts f offset slot given =>
      -- All operands above the base of the group are its arguments.
      have count : (u :: (ts ++ o)).length - o.length = (u :: ts).length := by simp; omega
      have call := Group.call (given.arguments sum) (by rw [List.length_reverse, ← count, arity])
      rw [count, ← List.cons_append, List.take_left, List.drop_left, List.append_assoc,
        List.append_assoc]
      refine .read slot (.group ?_) rfl due callee fun _ => ?_
      all_goals simpa using call
  · cases opened with
    | parentheses slot =>
      rw [List.append_assoc, List.append_assoc]
      exact .read slot (.group (.parentheses sum)) rfl due callee fun _ => .parentheses sum

/-- A token that belongs to a term takes its place behind the open one. -/
theorem Stage.handled (h : Stage r w) (callee : r.callee = none ∨ t.lexeme = .opening)
    (hc : t.lexeme ≠ .comma) (hd : ∀ type, t.lexeme ≠ .damageType type)
    (step : r.handled source t = .ok q) :
    Stage { q with last := some t } (w ++ [t.lexeme]) := by
  unfold Reading.handled at step
  split at step
  · rename_i a ht
    rw [ht]
    exact h.atom (callee.resolve_right (by simp [ht])) step ht
  · rename_i op ht
    rw [ht]
    exact h.operator step
  · rename_i ht
    rw [ht]
    exact h.opening step
  · rename_i ht
    rw [ht]
    exact h.closing step
  · exact absurd ‹_› hc
  · exact absurd ‹_› (hd _)

/-- Where settling leaves one operand and no group, the open term is a sum. -/
theorem Stage.sum {spot : Cause → Fault} {o : List Tree} (h : Stage r w)
    (due : r.awaitsOperand = false)
    (settled : settle spot (fun _ => true) r.marks r.operands = .ok ([], o)) :
    ∃ u, o = [u] ∧ Sum w u := by
  obtain ⟨v, y, p, u, rfl, opened, sum, rfl, -⟩ := h.settled due settled
  cases opened
  exact ⟨u, rfl, sum⟩

theorem Stage.comma (h : Stage r w) (unclosed : r.afterDamageType = false)
    (step : r.comma source t = .ok q) :
    (Stage { q with last := some t } (w ++ [.comma]) ∧ q.terms = r.terms ∧ q.start = r.start ∧
      q.awaitsOperand = true ∧ w ≠ []) ∨
    ∃ u, Sum w u ∧ r.awaitsOperand = false ∧ q = { r with
      marks := []
      operands := []
      terms := r.closed source t.offset none u :: r.terms
      awaitsOperand := true
      start := none } := by
  rcases comma_ok_iff.1 step with ⟨-, -, h', -⟩ | ⟨-, due, m, o, settled, step⟩
  · simp [unclosed] at h'
  · rcases step with ⟨f, base, offset, rest, hm, rfl⟩ | ⟨rfl, u, rfl, rfl⟩
    · obtain ⟨v, y, p, u, rfl, opened, sum, rfl, callee⟩ := h.settled due settled
      cases hm
      refine .inl ⟨?_, rfl, rfl, rfl, by simp [sum.ne_nil]⟩
      cases opened with
      | call slot given =>
        rw [List.append_assoc, List.append_assoc]
        exact .due (Open.call slot (given.comma sum)).slot rfl callee
    · obtain ⟨u', hu, sum⟩ := h.sum due settled
      cases hu
      exact .inr ⟨u, sum, due, rfl⟩

theorem Stage.damageType {type : Text} (h : Stage r w)
    (step : r.damageType source t type = .ok q) :
    ∃ u, Sum w u ∧ r.awaitsOperand = false ∧ q = { r with
      marks := []
      operands := []
      terms := r.closed source t.offset (some type) u :: r.terms
      awaitsOperand := true
      start := none } := by
  obtain ⟨due, u, settled, rfl⟩ := damageType_ok_iff.1 step
  obtain ⟨u', hu, sum⟩ := h.sum due settled
  cases hu
  exact ⟨u, sum, due, rfl⟩

/-! ## All tokens -/

/-- The term over an expression whose first and last tokens are given. -/
def spelled (source : Text) (first last : Token) (type : Option Text) (u : Tree) : Term :=
  ⟨u, type, source.slice first.offset (max last.stop first.offset), first.offset⟩

/-- The tokens of a term, those of its damage type among them. -/
inductive TermTokens (source : Text) : List Token → Term → Prop
  | bare {ts : List Token} {first last : Token} {u : Tree} : Sum (ts.map (·.lexeme)) u →
      ts.head? = some first → ts.getLast? = some last →
      TermTokens source ts (spelled source first last none u)
  | typed {ts : List Token} {first last t : Token} {u : Tree} {type : Text} :
      Sum (ts.map (·.lexeme)) u → ts.head? = some first → ts.getLast? = some last →
      t.lexeme = .damageType type →
      TermTokens source (ts ++ [t]) (spelled source first last (some type) u)

/-- The tokens of terms with a comma behind each; the terms newest first. -/
inductive Closed (source : Text) : List Token → List Term → Prop
  | nil : Closed source [] []
  | cons {done ts : List Token} {t : Token} {terms : List Term} {term : Term} :
      Closed source done terms → TermTokens source ts term → t.lexeme = .comma →
      Closed source (done ++ ts ++ [t]) (term :: terms)

/-- How a reading stands to all the tokens that it has taken. -/
inductive Traced (source : Text) : List Token → Reading → Prop
  /-- Some tokens of the last term were read. -/
  | within {done ts : List Token} {r : Reading} : Closed source done r.terms →
      Stage r (ts.map (·.lexeme)) → r.start = ts.head?.map (·.offset) →
      r.last = (done ++ ts).getLast? → r.afterDamageType = false →
      (r.awaitsOperand = false → ∃ t, ts.getLast? = some t ∧ r.stop = t.stop) →
      Traced source (done ++ ts) r
  /-- The damage type of the last term was read. -/
  | typed {done ts : List Token} {t : Token} {terms : List Term} {term : Term} {type : Text}
      {r : Reading} : Closed source done terms → TermTokens source ts term →
      r.terms = term :: terms → r.marks = [] → r.operands = [] → r.start = none →
      r.awaitsOperand = true → r.callee = none → r.last = some t → t.lexeme = .damageType type →
      Traced source (done ++ ts) r

variable (source) in
/-- The term that closes behind the tokens `ts`. -/
theorem closed_eq_spelled {ts : List Token} {u : Tree} (type : Option Text) (fallback : Nat)
    (sum : Sum (ts.map (·.lexeme)) u) (start : r.start = ts.head?.map (·.offset))
    (stop : ∃ t, ts.getLast? = some t ∧ r.stop = t.stop) :
    ∃ first last, ts.head? = some first ∧ ts.getLast? = some last ∧
      r.closed source fallback type u = spelled source first last type u := by
  obtain ⟨last, hlast, stop⟩ := stop
  cases ts with
  | nil => cases hlast
  | cons first rest =>
    refine ⟨first, last, rfl, hlast, ?_⟩
    simp [Reading.closed, spelled, start, stop]

section Within

variable {done ts : List Token} (closed : Closed source done r.terms)
  (stage : Stage r (ts.map (·.lexeme))) (start : r.start = ts.head?.map (·.offset))
  (stop : r.awaitsOperand = false → ∃ t, ts.getLast? = some t ∧ r.stop = t.stop)

include closed stage start

theorem traced_of_term (callee : r.callee = none ∨ t.lexeme = .opening) (hc : t.lexeme ≠ .comma)
    (hd : ∀ type, t.lexeme ≠ .damageType type) (step : (r.extend t).handled source t = .ok q) :
    Traced source (done ++ ts ++ [t]) { q with last := some t } := by
  obtain ⟨terms, qstart, qstop⟩ := handled_frame hc hd step
  rw [extend_of_term hc hd] at qstart qstop
  have next := (stage.extend t).handled (by simpa using callee) hc hd step
  rw [List.append_assoc]
  refine .within (by simpa [terms] using closed) (by simpa using next) ?_ (by simp)
    (unclosed_of_last rfl hd) fun _ => ⟨t, by simp, qstop⟩
  show q.start = _
  rw [qstart, start]
  cases ts <;> rfl

include stop

theorem traced_of_comma (callee : r.callee = none) (unclosed : r.afterDamageType = false)
    (hc : t.lexeme = .comma) (step : r.comma source t = .ok q) :
    Traced source (done ++ ts ++ [t]) { q with last := some t } := by
  rcases stage.comma unclosed step with ⟨next, terms, qstart, qdue, hw⟩ | ⟨u, sum, due, rfl⟩
  · -- A comma between arguments stays in the open term.
    rw [List.append_assoc]
    refine .within (terms ▸ closed) (by simpa [hc] using next) ?_ (by simp)
      (unclosed_of_last rfl (by simp [hc])) fun h => by simp [qdue] at h
    show q.start = _
    rw [qstart, start]
    cases ts with
    | nil => exact absurd rfl hw
    | cons _ _ => rfl
  · -- A comma behind a sum closes the term, and nothing is open behind it.
    obtain ⟨first, final, hfirst, hfinal, e⟩ :=
      closed_eq_spelled source none t.offset sum start (stop due)
    rw [e, ← List.append_nil (done ++ ts ++ [t])]
    exact .within (.cons closed (.bare sum hfirst hfinal) hc) (.due Open.term.slot rfl callee) rfl
      (by simp) (unclosed_of_last rfl (by simp [hc])) nofun

theorem traced_of_damageType (callee : r.callee = none) {type : Text}
    (hd : t.lexeme = .damageType type) (step : r.damageType source t type = .ok q) :
    Traced source (done ++ ts ++ [t]) { q with last := some t } := by
  obtain ⟨u, sum, due, rfl⟩ := stage.damageType step
  obtain ⟨first, final, hfirst, hfinal, e⟩ :=
    closed_eq_spelled source (some type) t.offset sum start (stop due)
  rw [e, List.append_assoc]
  exact .typed closed (.typed sum hfirst hfinal hd) rfl rfl rfl rfl rfl callee rfl hd

end Within

/-- What one token leaves of the trace. -/
theorem Traced.feed {ts : List Token} {s : Reading} (h : Traced source ts r)
    (fed : r.feed source t = .ok s) : Traced source (ts ++ [t]) s := by
  obtain ⟨callee, separated, q, step, rfl⟩ := feed_ok_iff.1 fed
  cases h with
  | @within done ts r closed stage start last unclosed stop =>
    by_cases hc : t.lexeme = .comma
    · simp only [Reading.handled, hc] at step
      rw [extend_of_separator (.inl hc)] at step
      exact traced_of_comma closed stage start stop (callee.resolve_right (by simp [hc])) unclosed
        hc step
    · by_cases hd : ∃ type, t.lexeme = .damageType type
      · obtain ⟨type, hd⟩ := hd
        simp only [Reading.handled, hd] at step
        rw [extend_of_separator (.inr ⟨type, hd⟩)] at step
        exact traced_of_damageType closed stage start stop (callee.resolve_right (by simp [hd])) hd
          step
      · exact traced_of_term closed stage start callee hc (not_exists.1 hd) step
  | @typed done ts t' terms term type r closed tokens hterms marks operands start due callee' last
      ht' =>
    -- The damage type has closed the term, so all that this comma does is to count as one.
    have hd : r.afterDamageType = true := (afterDamageType_of_last last).2 ⟨type, ht'⟩
    have hc : t.lexeme = .comma := separated.resolve_left (by simp [hd])
    simp only [Reading.handled, hc] at step
    rw [extend_of_separator (.inl hc)] at step
    rcases comma_ok_iff.1 step with ⟨-, -, -, rfl⟩ | ⟨h, -⟩
    · rw [← List.append_nil (done ++ ts ++ [t])]
      exact .within (hterms ▸ .cons closed tokens hc)
        (.due (by rw [marks, operands]; exact Open.term.slot) due callee') start (by simp)
        (unclosed_of_last rfl (by simp [hc])) fun h => by simp [due] at h
    · exact absurd ⟨operands, marks⟩ h

/-! ## The end of the open term -/

/-- Behind a roll in which no operand is due its last term is open. -/
theorem Traced.within_of_due {ts : List Token} (h : Traced source ts r)
    (due : r.awaitsOperand = false) :
    ∃ done us, ts = done ++ us ∧ Stage r (us.map (·.lexeme)) ∧
      r.start = us.head?.map (·.offset) ∧ ∃ t, us.getLast? = some t ∧ r.stop = t.stop := by
  cases h with
  | within _ stage start _ _ stop => exact ⟨_, _, rfl, stage, start, stop due⟩
  | typed _ _ _ _ _ _ h _ _ _ => simp [due] at h

/-- The tokens end with a call of `f` whose parenthesis is open, and with these arguments. -/
inductive OpenCall (f : Builtin) : List Token → List Tree → Prop
  | mk {front inner : List Token} {name opening : Token} {arguments : List Tree} :
      name.lexeme = .atom f.name → opening.lexeme = .opening →
      Arguments (inner.map (·.lexeme)) arguments →
      OpenCall f (front ++ name :: opening :: inner) arguments

/-- Where settling comes to the group of a function, the operands above its base are the arguments
that were read behind its parenthesis. -/
theorem Traced.call {ts : List Token} {spot : Cause → Fault} {f : Builtin} {base offset : Nat}
    {m : List Mark} {o : List Tree} (h : Traced source ts r) (due : r.awaitsOperand = false)
    (settled : settle spot (fun _ => true) r.marks r.operands =
      .ok (.group (some f) base offset :: m, o)) :
    ∃ arguments, OpenCall f ts arguments ∧ o.length = base + arguments.length ∧
      (o.take arguments.length).reverse = arguments := by
  obtain ⟨done, us, rfl, stage, -⟩ := h.within_of_due due
  obtain ⟨v, y, p, u, hw, opened, sum, rfl, -⟩ := stage.settled due settled
  cases opened with
  | @call v w m o ts f offset slot given =>
    simp only [List.append_assoc, List.cons_append, List.map_eq_append_iff,
      List.map_eq_cons_iff] at hw
    obtain ⟨front, _, rfl, -, name, _, rfl, hname, opening, inner, rfl, hopening, hinner⟩ := hw
    obtain ⟨x, z, rfl, rfl, rfl⟩ := hinner
    refine ⟨(u :: ts).reverse, ?_, ?_, ?_⟩
    · rw [← List.append_assoc]
      refine .mk hname hopening ?_
      rw [List.map_append]
      exact given.arguments sum
    · simp only [List.length_reverse, List.length_cons, List.length_append]
      omega
    · rw [List.length_reverse, ← List.cons_append, List.take_left]

end Reading

end RulesText.Roll
