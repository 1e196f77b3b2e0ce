/-
What each step of a reading does when it succeeds: one equivalence for each of the functions in
`Reading`, so that nothing else has to open them.
-/
import RulesText.Roll.Reading

namespace RulesText.Roll

/-! ## Results -/

theorem bind_eq_ok {ε α β : Type} {x : Except ε α} {f : α → Except ε β} {b : β} :
    x >>= f = .ok b ↔ ∃ a, x = .ok a ∧ f a = .ok b := by
  cases x <;> simp [bind, Except.bind]

theorem map_eq_ok {ε α β : Type} {x : Except ε α} {f : α → β} {b : β} :
    f <$> x = .ok b ↔ ∃ a, x = .ok a ∧ f a = b := by
  cases x <;> simp [Functor.map, Except.map]

theorem pure_eq_ok {ε α : Type} {a b : α} : (pure a : Except ε α) = .ok b ↔ a = b := by
  simp [pure, Except.pure]

theorem throw_eq_ok {ε α : Type} {e : ε} {b : α} : (throw e : Except ε α) = .ok b ↔ False := by
  simp [throw, throwThe, MonadExceptOf.throw]

theorem guard_eq_ok {ε α β : Type} {c : Prop} [Decidable c] {e : ε} {f : α → Except ε β}
    {x : Except ε β} {b : β} : (if c then throw e >>= f else x) = .ok b ↔ ¬c ∧ x = .ok b := by
  split <;> simp [*, bind_eq_ok, throw_eq_ok]

namespace Reading

/-! ## Settling -/

theorem popOperand_ok_iff {spot : Cause → Fault} {t : Tree} {o p : List Tree} :
    popOperand spot o = .ok (t, p) ↔ o = t :: p := by
  cases o <;> simp [popOperand]

theorem settle_join {binds : Operator → Bool} {op : Operator} (h : binds op = true)
    (spot : Cause → Fault) (m : List Mark) (l r : Tree) (o : List Tree) :
    settle spot binds (.operator op :: m) (r :: l :: o) =
      settle spot binds m (.binary op l r :: o) := by
  rw [settle, if_pos h]
  rfl

theorem settle_stop {binds : Operator → Bool} {op : Operator} (h : binds op = false)
    (spot : Cause → Fault) (m : List Mark) (o : List Tree) :
    settle spot binds (.operator op :: m) o = .ok (.operator op :: m, o) := by
  rw [settle, if_neg (by simp [h])]

theorem settleAll_ok_iff {spot : Cause → Fault} {r s : Reading} :
    r.settleAll spot = .ok s ↔
      ∃ m o, settle spot (fun _ => true) r.marks r.operands = .ok (m, o) ∧
        s = { r with marks := m, operands := o } := by
  simp [settleAll, map_eq_ok, @eq_comm _ s]

/-! ## Pending operators -/

/-- Operators of strength `low` and more that wait in `m` will join the operands `o` to `us`. -/
def Pending (low : Nat) (m : List Mark) (o us : List Tree) : Prop :=
  ∀ (spot : Cause → Fault) (binds : Operator → Bool), (∀ op, low ≤ op.strength → binds op = true) →
    ∀ n p, settle spot binds (m ++ n) (o ++ p) = settle spot binds n (us ++ p)

/-- No operator of strength `low` or more is on top. -/
def Stops (low : Nat) (m : List Mark) : Prop :=
  ∀ op rest, m = .operator op :: rest → op.strength < low

theorem Pending.refl (low : Nat) (us : List Tree) : Pending low [] us us :=
  fun _ _ _ _ _ => rfl

theorem Pending.mono {low high : Nat} {m : List Mark} {o us : List Tree} (h : Pending high m o us)
    (le : low ≤ high) : Pending low m o us :=
  fun spot binds all => h spot binds fun op le' => all op (Nat.le_trans le le')

/-- Behind a pending operand an operator of the same strength and its right operand. -/
theorem Pending.join {low high : Nat} {m : List Mark} {o : List Tree} {l u : Tree} {op : Operator}
    (right : Pending high m o [u]) (le : low ≤ high) (strength : low ≤ op.strength) :
    Pending low (m ++ [.operator op]) (o ++ [l]) [.binary op l u] := by
  intro spot binds all n p
  rw [List.append_assoc, List.append_assoc, right.mono le spot binds all]
  exact settle_join (all op strength) spot n l u p

theorem Pending.push {low : Nat} {m : List Mark} {o us : List Tree} {u : Tree}
    (h : Pending low m o [u]) : Pending low m (o ++ us) (u :: us) := by
  intro spot binds all n p
  rw [List.append_assoc, h spot binds all]
  rfl

/-- What settling leaves of a pending operand where nothing below it can bind. -/
theorem Pending.settled {low : Nat} {m n : List Mark} {o us p : List Tree} {binds : Operator → Bool}
    (h : Pending low m o us) (spot : Cause → Fault)
    (all : ∀ op, low ≤ op.strength ↔ binds op = true) (stops : Stops low n) :
    settle spot binds (m ++ n) (o ++ p) = .ok (n, us ++ p) := by
  rw [h spot binds fun op le => (all op).1 le]
  -- Settling ends at once: at the bottom, at a group, or at an operator that does not bind.
  match n, stops with
  | [], _ => rfl
  | .group _ _ _ :: _, _ => rfl
  | .operator op :: rest, stops =>
    refine settle_stop ?_ spot rest _
    have := stops op rest rfl
    simpa using mt (all op).2 (by omega)

theorem Pending.settled_all {m n : List Mark} {o us p : List Tree} (h : Pending 1 m o us)
    (spot : Cause → Fault) (stops : Stops 1 n) :
    settle spot (fun _ => true) (m ++ n) (o ++ p) = .ok (n, us ++ p) :=
  h.settled spot (fun op => by cases op <;> simp [Operator.strength]) stops

theorem stops_nil (low : Nat) : Stops low [] := nofun

theorem stops_group (low : Nat) (f : Option Builtin) (base offset : Nat) (m : List Mark) :
    Stops low (.group f base offset :: m) := nofun

/-! ## Terms -/

/-- The term that a reading closes over an expression. -/
def closed (source : Text) (fallback : Nat) (type : Option Text) (t : Tree) (r : Reading) : Term :=
  let start := r.start.getD fallback
  ⟨t, type, source.slice start (max r.stop start), start⟩

theorem finishTerm_ok_iff {source : Text} {spot : Cause → Fault} {fallback : Nat}
    {type : Option Text} {r s : Reading} :
    r.finishTerm source spot fallback type = .ok s ↔
      ∃ t, r.operands = [t] ∧
        s = { r with
          operands := []
          terms := r.closed source fallback type t :: r.terms
          awaitsOperand := true
          start := none } := by
  unfold finishTerm
  constructor
  · intro h
    obtain ⟨⟨t, o⟩, ht, h⟩ := bind_eq_ok.1 h
    obtain rfl | ⟨u, p, rfl⟩ : o = [] ∨ ∃ u p, o = u :: p := by cases o <;> simp
    · exact ⟨t, popOperand_ok_iff.1 ht, (pure_eq_ok.1 h).symm⟩
    · exact absurd h (by simp [throw_eq_ok, map_eq_ok])
  · rintro ⟨t, ht, rfl⟩
    rw [ht]
    rfl

/-! ## The open term grows -/

section Extend

variable {r : Reading} {t : Token}

@[simp] theorem extend_operands : (r.extend t).operands = r.operands := by
  unfold extend; split <;> rfl

@[simp] theorem extend_marks : (r.extend t).marks = r.marks := by unfold extend; split <;> rfl

@[simp] theorem extend_terms : (r.extend t).terms = r.terms := by unfold extend; split <;> rfl

@[simp] theorem extend_awaitsOperand : (r.extend t).awaitsOperand = r.awaitsOperand := by
  unfold extend; split <;> rfl

@[simp] theorem extend_callee : (r.extend t).callee = r.callee := by unfold extend; split <;> rfl

@[simp] theorem extend_last : (r.extend t).last = r.last := by unfold extend; split <;> rfl

@[simp] theorem extend_afterDamageType : (r.extend t).afterDamageType = r.afterDamageType := by
  simp [afterDamageType]

theorem afterDamageType_of_last (h : r.last = some t) :
    r.afterDamageType = true ↔ ∃ type, t.lexeme = .damageType type := by
  obtain ⟨l, offset⟩ := t
  cases l <;> simp [afterDamageType, h]

theorem unclosed_of_last (h : r.last = some t) (ht : ∀ type, t.lexeme ≠ .damageType type) :
    r.afterDamageType = false := by
  rw [← Bool.not_eq_true, afterDamageType_of_last h]
  exact fun ⟨type, e⟩ => ht type e

theorem extend_of_term (hc : t.lexeme ≠ .comma) (hd : ∀ type, t.lexeme ≠ .damageType type) :
    r.extend t = { r with start := some (r.start.getD t.offset), stop := t.stop } := by
  unfold extend
  split
  · exact absurd ‹_› hc
  · exact absurd ‹_› (hd _)
  · rfl

theorem extend_of_separator (h : t.lexeme = .comma ∨ ∃ type, t.lexeme = .damageType type) :
    r.extend t = r := by
  rcases h with h | ⟨type, h⟩ <;> simp [extend, h]

variable (r t) in
/-- Only the bounds of the open term change. -/
theorem extend_eq : ∃ start stop, r.extend t = { r with start, stop } := by
  unfold extend
  split <;> exact ⟨_, _, rfl⟩

end Extend

/-! ## Tokens -/

theorem atom_ok_iff {t : Token} {a : Text} {r s : Reading} :
    r.atom t a = .ok s ↔
      (r.awaitsOperand = true ∧ ∃ f, Builtin.ofName? a = some f ∧
        s = { r with callee := some (f, t.offset) }) ∨
      (r.awaitsOperand = true ∧ Builtin.ofName? a = none ∧
        s = { r with operands := Tree.leaf a :: r.operands, awaitsOperand := false }) ∨
      (r.awaitsOperand = false ∧ r.last.map (·.lexeme) = some .closing ∧ Tree.isDie a = true ∧
        ∃ u o, r.operands = u :: o ∧ s = { r with operands := .dice u a :: o }) := by
  unfold atom
  split
  · rename_i hw
    split <;> rename_i hf <;> simp [hw, hf, @eq_comm _ s]
  · rename_i hw
    split
    · rename_i hc
      simp only [decide_eq_true_eq, Bool.and_eq_true] at hc
      simp [hw, hc.1, hc.2, popOperand_ok_iff, map_eq_ok, @eq_comm _ s]
    · rename_i hc
      simp only [decide_eq_true_eq, Bool.and_eq_true, not_and] at hc
      refine ⟨nofun, ?_⟩
      rintro (⟨h, -⟩ | ⟨h, -⟩ | ⟨-, h, hd, -⟩)
      · exact absurd h hw
      · exact absurd h hw
      · exact absurd hd (hc h)

theorem operator_ok_iff {t : Token} {op : Operator} {r s : Reading} :
    r.operator t op = .ok s ↔
      r.awaitsOperand = false ∧
      ∃ m o, settle t.fault (fun top => op.strength ≤ top.strength) r.marks r.operands =
          .ok (m, o) ∧
        s = { r with marks := .operator op :: m, operands := o, awaitsOperand := true } := by
  unfold operator
  cases r.awaitsOperand <;> simp [bind_eq_ok, throw_eq_ok, map_eq_ok, @eq_comm _ s]

theorem opening_ok_iff {t : Token} {r s : Reading} :
    r.opening t = .ok s ↔
      r.awaitsOperand = true ∧
      s = { r with
        marks := .group (r.callee.map (·.1)) r.operands.length t.offset :: r.marks
        callee := none } := by
  unfold opening
  split
  · rename_i h
    simp [h, @eq_comm _ s]
  · rename_i h
    split <;> simp [h]

/-- What settling all leaves on top is not an operator. -/
theorem settle_all_marks {spot : Cause → Fault} {m n : List Mark} {o p : List Tree}
    (h : settle spot (fun _ => true) m o = .ok (n, p)) :
    n = [] ∨ ∃ f base offset rest, n = .group f base offset :: rest := by
  induction m generalizing o with
  | nil =>
    cases h
    exact .inl rfl
  | cons mark m ih =>
    cases mark with
    | group f base offset =>
      cases h
      exact .inr ⟨f, base, offset, m, rfl⟩
    | operator op =>
      rw [settle, if_pos rfl] at h
      obtain ⟨q, -, h⟩ := bind_eq_ok.1 h
      exact ih h

theorem closing_ok_iff {t : Token} {r s : Reading} :
    r.closing t = .ok s ↔
      r.awaitsOperand = false ∧
      ∃ m o, settle t.fault (fun _ => true) r.marks r.operands = .ok (m, o) ∧
        ((∃ f base offset rest, m = .group (some f) base offset :: rest ∧
          o.length - base = f.arity ∧
          s = { r with
            marks := rest
            operands := .call f (o.take (o.length - base)).reverse :: o.drop (o.length - base) }) ∨
        (∃ base offset rest, m = .group none base offset :: rest ∧ o.length = base + 1 ∧
          s = { r with marks := rest, operands := o })) := by
  unfold closing
  rw [guard_eq_ok, Bool.not_eq_true]
  refine and_congr_right fun _ => ?_
  simp only [bind_eq_ok, settleAll_ok_iff]
  constructor
  · rintro ⟨_, ⟨m, o, h, rfl⟩, h'⟩
    refine ⟨m, o, h, ?_⟩
    split at h'
    · rename_i f base offset rest hm
      obtain rfl : m = _ := hm
      obtain ⟨ha, h'⟩ := guard_eq_ok.1 h'
      exact .inl ⟨f, base, offset, rest, rfl, by simpa using ha, (pure_eq_ok.1 h').symm⟩
    · rename_i base offset rest hm
      obtain rfl : m = _ := hm
      obtain ⟨ha, h'⟩ := guard_eq_ok.1 h'
      exact .inr ⟨base, offset, rest, rfl, by simpa using ha, (pure_eq_ok.1 h').symm⟩
    · exact (throw_eq_ok.1 h').elim
  · rintro ⟨m, o, h, ⟨f, base, offset, rest, rfl, ha, rfl⟩ | ⟨base, offset, rest, rfl, ha, rfl⟩⟩
    · exact ⟨_, ⟨_, o, h, rfl⟩, guard_eq_ok.2 ⟨by simp [ha], rfl⟩⟩
    · exact ⟨_, ⟨_, o, h, rfl⟩, guard_eq_ok.2 ⟨by simp [ha], rfl⟩⟩

theorem comma_ok_iff {source : Text} {t : Token} {r s : Reading} :
    r.comma source t = .ok s ↔
      (r.operands = [] ∧ r.marks = [] ∧ r.afterDamageType = true ∧ s = r) ∨
      (¬(r.operands = [] ∧ r.marks = []) ∧ r.awaitsOperand = false ∧
        ∃ m o, settle t.fault (fun _ => true) r.marks r.operands = .ok (m, o) ∧
          ((∃ f base offset rest, m = .group (some f) base offset :: rest ∧
            s = { r with marks := m, operands := o, awaitsOperand := true }) ∨
          (m = [] ∧ ∃ u, o = [u] ∧
            s = { r with
              marks := []
              operands := []
              terms := r.closed source t.offset none u :: r.terms
              awaitsOperand := true
              start := none }))) := by
  unfold comma
  by_cases he : r.operands.isEmpty && r.marks.isEmpty
  · -- Nothing is open: the comma is only taken behind a damage type.
    obtain ⟨ho, hm⟩ : r.operands = [] ∧ r.marks = [] := by simpa using he
    simp only [ho, hm, List.isEmpty_nil, Bool.and_self, if_true, and_self, not_true_eq_false,
      false_and, or_false, true_and]
    cases r.afterDamageType <;> simp [pure_eq_ok, bind_eq_ok, throw_eq_ok, @eq_comm _ s]
  · have hn : ¬(r.operands = [] ∧ r.marks = []) := by simpa using he
    simp only [he, Bool.false_eq_true, if_false]
    rw [guard_eq_ok, Bool.not_eq_true, or_iff_right fun h => hn ⟨h.1, h.2.1⟩, and_iff_right hn]
    refine and_congr_right fun _ => ?_
    simp only [bind_eq_ok, settleAll_ok_iff]
    constructor
    · rintro ⟨_, ⟨m, o, h, rfl⟩, h'⟩
      refine ⟨m, o, h, ?_⟩
      -- With no group on top the comma ends a term, with a call on top an argument.
      rcases settle_all_marks h with rfl | ⟨f, base, offset, rest, rfl⟩
      · obtain ⟨u, ho, rfl⟩ := finishTerm_ok_iff.1 h'
        exact .inr ⟨rfl, u, ho, rfl⟩
      · cases f with
        | none => exact (throw_eq_ok.1 h').elim
        | some f => exact .inl ⟨f, base, offset, rest, rfl, (pure_eq_ok.1 h').symm⟩
    · rintro ⟨m, o, h, ⟨f, base, offset, rest, rfl, rfl⟩ | ⟨rfl, u, rfl, rfl⟩⟩
      · exact ⟨_, ⟨_, o, h, rfl⟩, rfl⟩
      · exact ⟨_, ⟨_, _, h, rfl⟩, finishTerm_ok_iff.2 ⟨u, rfl, rfl⟩⟩

theorem damageType_ok_iff {source : Text} {t : Token} {type : Text} {r s : Reading} :
    r.damageType source t type = .ok s ↔
      r.awaitsOperand = false ∧
      ∃ u, settle t.fault (fun _ => true) r.marks r.operands = .ok ([], [u]) ∧
        s = { r with
          marks := []
          operands := []
          terms := r.closed source t.offset (some type) u :: r.terms
          awaitsOperand := true
          start := none } := by
  unfold damageType
  rw [guard_eq_ok, Bool.not_eq_true]
  refine and_congr_right fun _ => ?_
  simp only [bind_eq_ok, settleAll_ok_iff]
  constructor
  · rintro ⟨_, ⟨m, o, h, rfl⟩, h'⟩
    obtain ⟨hm, h'⟩ := guard_eq_ok.1 h'
    obtain rfl : m = [] := by simpa using hm
    obtain ⟨u, ho, rfl⟩ := finishTerm_ok_iff.1 h'
    obtain rfl : o = [u] := ho
    exact ⟨u, h, rfl⟩
  · rintro ⟨u, h, rfl⟩
    exact ⟨_, ⟨_, _, h, rfl⟩, finishTerm_ok_iff.2 ⟨u, rfl, rfl⟩⟩

/-- Reads one token, without the checks that come before every token. -/
def handled (source : Text) (t : Token) (r : Reading) : Except Fault Reading :=
  match t.lexeme with
  | .atom a => r.atom t a
  | .operator op => r.operator t op
  | .opening => r.opening t
  | .closing => r.closing t
  | .comma => r.comma source t
  | .damageType type => r.damageType source t type

/-- A token that belongs to a term leaves the terms and the bounds of the open one alone. -/
theorem handled_frame {source : Text} {t : Token} {r s : Reading} (hc : t.lexeme ≠ .comma)
    (hd : ∀ type, t.lexeme ≠ .damageType type) (h : r.handled source t = .ok s) :
    s.terms = r.terms ∧ s.start = r.start ∧ s.stop = r.stop := by
  unfold handled at h
  split at h
  · rcases atom_ok_iff.1 h with ⟨-, f, -, rfl⟩ | ⟨-, -, rfl⟩ | ⟨-, -, -, u, o, -, rfl⟩ <;>
      exact ⟨rfl, rfl, rfl⟩
  · obtain ⟨-, m, o, -, rfl⟩ := operator_ok_iff.1 h
    exact ⟨rfl, rfl, rfl⟩
  · obtain ⟨-, rfl⟩ := opening_ok_iff.1 h
    exact ⟨rfl, rfl, rfl⟩
  · obtain ⟨-, m, o, -, ⟨f, base, offset, rest, -, -, rfl⟩ | ⟨base, offset, rest, -, -, rfl⟩⟩ :=
      closing_ok_iff.1 h <;>
      exact ⟨rfl, rfl, rfl⟩
  · exact absurd ‹_› hc
  · exact absurd ‹_› (hd _)

theorem feed_ok_iff {source : Text} {t : Token} {r s : Reading} :
    r.feed source t = .ok s ↔
      (r.callee = none ∨ t.lexeme = .opening) ∧
      (r.afterDamageType = false ∨ t.lexeme = .comma) ∧
      ∃ q, (r.extend t).handled source t = .ok q ∧ s = { q with last := some t } := by
  unfold feed handled
  cases hc : r.callee <;> cases hl : t.lexeme <;>
    simp [guard_eq_ok, map_eq_ok, throw_eq_ok, bind_eq_ok, @eq_comm _ s]

theorem feedAll_append (source : Text) (r : Reading) (ts us : List Token) :
    feedAll source r (ts ++ us) = feedAll source r ts >>= fun s => feedAll source s us := by
  induction ts generalizing r with
  | nil => rfl
  | cons t ts ih => simp only [List.cons_append, feedAll, ih, bind_assoc]

/-! ## The end of a roll -/

/-- Closing the term that is open at the end needs one operand and no open group. -/
theorem settle_finish_iff {source : Text} {spot : Cause → Fault} {fallback : Nat} {r : Reading}
    {terms : List Term} :
    (∃ q, (∃ m o, settle spot (fun _ => true) r.marks r.operands = .ok (m, o) ∧
        q = { r with marks := m, operands := o }) ∧
      (!q.marks.isEmpty) = false ∧
      ∃ s, (∃ u, q.operands = [u] ∧
          s = { q with
            operands := []
            terms := q.closed source fallback none u :: q.terms
            awaitsOperand := true
            start := none }) ∧
        s.terms.isEmpty = false ∧ s.terms.reverse = terms) ↔
      ∃ u, settle spot (fun _ => true) r.marks r.operands = .ok ([], [u]) ∧
        terms = (r.closed source fallback none u :: r.terms).reverse := by
  constructor
  · rintro ⟨_, ⟨m, o, h, rfl⟩, hm, _, ⟨u, ho, rfl⟩, -, rfl⟩
    obtain rfl : m = [] := by simpa using hm
    obtain rfl : o = [u] := ho
    exact ⟨u, h, rfl⟩
  · rintro ⟨u, h, rfl⟩
    exact ⟨_, ⟨_, _, h, rfl⟩, by simp, _, ⟨u, rfl, rfl⟩, by simp, rfl⟩

theorem closeLast_ok_iff {source : Text} {r : Reading} {terms : List Term} :
    r.closeLast source = .ok terms ↔
      (r.operands = [] ∧ r.marks = [] ∧ r.terms ≠ [] ∧ terms = r.terms.reverse) ∨
      ¬(r.operands = [] ∧ r.marks = []) ∧ r.awaitsOperand = false ∧
        ∃ u, settle (fun cause => ⟨cause, [], source.width⟩) (fun _ => true) r.marks r.operands =
          .ok ([], [u]) ∧
          terms = (r.closed source source.width none u :: r.terms).reverse := by
  unfold closeLast
  by_cases he : r.operands = [] ∧ r.marks = []
  · obtain ⟨ho, hm⟩ := he
    simp only [ho, hm, List.isEmpty_nil, guard_eq_ok, bind_eq_ok, pure_eq_ok, Bool.and_self,
      if_true]
    simp [@eq_comm _ terms]
  · have hn : (r.operands.isEmpty && r.marks.isEmpty) = false := by simpa using he
    rw [or_iff_right fun h => he ⟨h.1, h.2.1⟩, and_iff_right he]
    simp only [hn, guard_eq_ok, bind_eq_ok, pure_eq_ok, settleAll_ok_iff, finishTerm_ok_iff,
      Bool.false_eq_true, if_false, Bool.not_eq_true, settle_finish_iff]

theorem finish_of_uncalled {source : Text} {r : Reading} {function : Builtin} {offset : Nat}
    (callee : r.callee = some (function, offset)) :
    r.finish source = .error ⟨.uncalledFunction, function.name, offset⟩ := by
  unfold finish
  rw [callee]
  rfl

theorem finish_of_called {r : Reading} (source : Text) (callee : r.callee = none) :
    ∃ offset, (r.last.map (·.lexeme) = some .comma → r.last = some ⟨.comma, offset⟩) ∧
      r.finish source =
        if r.last.map (·.lexeme) = some .comma ∧ r.marks.isEmpty = true then
          .error ⟨.emptyTerm, [','], offset⟩
        else r.closeLast source := by
  unfold finish
  rw [callee]
  rcases last : r.last with _ | ⟨l, offset⟩
  · exact ⟨0, nofun, (if_neg nofun).symm⟩
  · refine ⟨offset, fun comma => by simpa using comma, ?_⟩
    cases l with
    | comma =>
      show (if r.marks.isEmpty = true then .error ⟨.emptyTerm, [','], offset⟩
        else r.closeLast source) = _
      simp
    | _ => exact (if_neg (by simp)).symm

theorem finish_ok_iff {source : Text} {r : Reading} {terms : List Term} :
    r.finish source = .ok terms ↔
      r.callee = none ∧ (r.last.map (·.lexeme) = some .comma → r.marks ≠ []) ∧
        r.closeLast source = .ok terms := by
  rcases hc : r.callee with _ | ⟨function, offset⟩
  · obtain ⟨offset, -, e⟩ := finish_of_called source hc
    rw [e, and_iff_right rfl]
    split
    · rename_i comma
      exact ⟨nofun, fun h => absurd (List.isEmpty_iff.1 comma.2) (h.1 comma.1)⟩
    · rename_i comma
      rw [List.isEmpty_iff, not_and] at comma
      exact (and_iff_right comma).symm
  · rw [finish_of_uncalled hc]
    exact ⟨nofun, fun h => nomatch h.1⟩

end Reading

end RulesText.Roll
