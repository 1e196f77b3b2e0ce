/-
No step of a reading looks for an operand that is not there. `Fits` counts the operands that wait
below the last one, `Settling` passes through the stacks while operators are joined, and `Supplied`
says what the stacks hold at each such moment. So whatever a token is refused for, or the end of a
roll, lies in how the roll is written (`Refused`, `Unfinished`): an operand is missing only where
one is due, and an operator only in front of a token that has no place there (`operands_suffice`).
-/
import RulesText.Proofs.Roll.Spacing

namespace RulesText.Roll

open Grammar

/-! ## Counting operands -/

/-- No open group among the marks begins above `count` operands. -/
def GroupsBelow (m : List Mark) (count : Nat) : Prop :=
  ∀ f base offset, .group f base offset ∈ m → base ≤ count

theorem groupsBelow_nil (count : Nat) : GroupsBelow [] count := by simp [GroupsBelow]

theorem GroupsBelow.mono {m : List Mark} {count more : Nat} (h : GroupsBelow m count)
    (le : count ≤ more) : GroupsBelow m more :=
  fun f base offset mem => Nat.le_trans (h f base offset mem) le

theorem GroupsBelow.operator {m : List Mark} {count : Nat} (h : GroupsBelow m count)
    (op : Operator) : GroupsBelow (.operator op :: m) count :=
  fun f base offset mem => h f base offset (by simpa using mem)

theorem GroupsBelow.group {m : List Mark} {count base : Nat} (h : GroupsBelow m count)
    (le : base ≤ count) (f : Option Builtin) (offset : Nat) :
    GroupsBelow (.group f base offset :: m) count := by
  intro f' base' offset' mem
  rcases List.mem_cons.1 mem with e | mem
  · cases e
    exact le
  · exact h f' base' offset' mem

/-- The marks belong to `count` operands that wait: the left one of every operator, and above the
base of a group only the arguments that its function has been given so far. -/
inductive Fits : List Mark → Nat → Prop
  | nil : Fits [] 0
  | operator {m : List Mark} {count : Nat} (op : Operator) :
      Fits m count → Fits (.operator op :: m) (count + 1)
  | parentheses {m : List Mark} {count : Nat} (offset : Nat) :
      Fits m count → Fits (.group none count offset :: m) count
  | call {m : List Mark} {count : Nat} (f : Builtin) (offset given : Nat) :
      Fits m count → Fits (.group (some f) count offset :: m) (given + count)

theorem Fits.eq_zero {count : Nat} (h : Fits [] count) : count = 0 := by
  cases h
  rfl

theorem Fits.eq_base {m : List Mark} {count base offset : Nat}
    (h : Fits (.group none base offset :: m) count) : count = base := by
  cases h
  rfl

theorem Fits.below_operator {m : List Mark} {count : Nat} {op : Operator}
    (h : Fits (.operator op :: m) count) : ∃ n, count = n + 1 ∧ Fits m n := by
  cases h with
  | operator _ fits => exact ⟨_, rfl, fits⟩

theorem Fits.groupsBelow {m : List Mark} {count : Nat} (h : Fits m count) :
    GroupsBelow m count := by
  induction h with
  | nil => exact groupsBelow_nil 0
  | operator op _ ih => exact (ih.mono (Nat.le_succ _)).operator op
  | parentheses offset _ ih => exact ih.group (Nat.le_refl _) none offset
  | call f offset given _ ih =>
    exact (ih.mono (Nat.le_add_left _ _)).group (Nat.le_add_left _ _) (some f) offset

theorem Fits.nested {m : List Mark} {count base offset : Nat} {f : Option Builtin}
    (h : Fits (.group f base offset :: m) count) : GroupsBelow m base := by
  cases h with
  | parentheses _ fits => exact fits.groupsBelow
  | call _ _ _ fits => exact fits.groupsBelow

/-! ## From the slot that is due -/

theorem Addends.fits {v : List Lexeme} {n m : List Mark} {p : List Tree} {count : Nat}
    (h : Addends v n p) (below : Fits m count) : Fits (n ++ m) (p.length + count) := by
  cases h with
  | none => simpa using below
  | some _ _ => simpa [Nat.add_comm] using below.operator _

theorem Factors.fits {v : List Lexeme} {n m : List Mark} {p : List Tree} {count : Nat}
    (h : Factors v n p) (below : Fits m count) : Fits (n ++ m) (p.length + count) := by
  cases h with
  | none addends => exact addends.fits below
  | some addends _ _ => simpa [Nat.add_right_comm] using (addends.fits below).operator _

mutual

theorem Slot.fits {w : List Lexeme} {m : List Mark} {o : List Tree} :
    Slot w m o → Fits m o.length
  | .mk opened factors => by
    rw [List.length_append]
    exact factors.fits opened.fits

theorem Open.fits {w : List Lexeme} {m : List Mark} {o : List Tree} :
    Open w m o → Fits m o.length
  | .term => .nil
  | .parentheses slot => slot.fits.parentheses _
  | .call slot _ => by
    rw [List.length_append]
    exact slot.fits.call _ _ _

end

/-! ## The text of some tokens -/

/-- The text from the first of some tokens to the end of the last. -/
theorem Token.Spaced.extent {source : Text} {done ts us : List Token} {first last : Token}
    (h : Spaced 0 source (done ++ ts ++ us)) (hfirst : ts.head? = some first)
    (hlast : ts.getLast? = some last) :
    ∃ part : Text, part ≠ [] ∧ part.StandsAt first.offset source ∧
      last.stop = first.offset + part.width := by
  obtain ⟨rest, rfl⟩ := List.head?_eq_some_iff.1 hfirst
  rw [List.append_assoc, List.cons_append] at h
  obtain ⟨u, t, rfl, -, place, ends, spaced⟩ := h.split
  -- The last token is looked for in the text from the first one on.
  obtain ⟨front, e⟩ := List.getLast?_eq_some_iff.1 hlast
  have here := Spaced.token ends spaced
  rw [← List.cons_append, e, List.append_assoc] at here
  obtain ⟨v, behind, text, -, place', ends', -⟩ := here.split
  refine ⟨v ++ last.text, List.append_ne_nil_of_right_ne_nil _ (edges ends').1, ?_, ?_⟩
  · refine ⟨u, behind, ?_, by omega⟩
    rw [List.append_assoc, text]
    simp
  · rw [stop, place', Text.width_append, Nat.add_assoc]

namespace Reading

variable {source : Text} {r : Reading} {t : Token} {m : List Mark} {o : List Tree}
  {behind ts : List Token}

/-- The operands of a reading are those that wait, and one more where none is due. -/
def Counted (r : Reading) : Prop :=
  ∃ count, Fits r.marks count ∧ r.operands.length = if r.awaitsOperand then count else count + 1

theorem Stage.counted {w : List Lexeme} (h : Stage r w) : Counted r := by
  cases h with
  | due slot due _ => exact ⟨_, slot.fits, by rw [if_pos due]⟩
  | named slot due _ => exact ⟨_, slot.fits, by rw [if_pos due]⟩
  | read slot _ operands due _ _ => exact ⟨_, slot.fits, by simp [operands, due]⟩

theorem Traced.counted (h : Traced source ts r) : Counted r := by
  cases h with
  | within _ stage _ _ _ _ => exact stage.counted
  | typed _ _ _ marks operands _ due _ _ _ =>
    exact ⟨0, by rw [marks]; exact .nil, by rw [operands, if_pos due]; rfl⟩

theorem Counted.groupsBelow (h : Counted r) : GroupsBelow r.marks r.operands.length := by
  obtain ⟨count, fits, total⟩ := h
  exact fits.groupsBelow.mono (by rw [total]; split <;> omega)

/-! ## While operators are joined -/

/-- The stacks of a reading in which no operand is due, at every moment while its operators are
joined with their operands. -/
inductive Settling (r : Reading) : List Mark → List Tree → Prop
  | start : r.awaitsOperand = false → Settling r r.marks r.operands
  | join {op : Operator} {m : List Mark} {left right : Tree} {o : List Tree} :
      Settling r (.operator op :: m) (right :: left :: o) →
      Settling r m (.binary op left right :: o)

theorem Settling.due (h : Settling r m o) : r.awaitsOperand = false := by
  induction h with
  | start due => exact due
  | join _ ih => exact ih

/-- At every such moment one operand lies above those that wait. -/
theorem Settling.fits (h : Settling r m o) (counted : Counted r) :
    ∃ u p, o = u :: p ∧ Fits m p.length := by
  induction h with
  | start due =>
    obtain ⟨count, fits, total⟩ := counted
    rw [if_neg (by simp [due])] at total
    obtain ⟨u, p, e⟩ := List.exists_cons_of_length_eq_add_one total
    rw [e, List.length_cons, Nat.add_right_cancel_iff] at total
    exact ⟨u, p, e, total ▸ fits⟩
  | join _ ih =>
    -- Two operands are one now, and no operator waits for the left of them any more.
    obtain ⟨u, p, e, fits⟩ := ih
    cases e
    obtain ⟨n, total, fits⟩ := fits.below_operator
    obtain rfl := Nat.add_right_cancel total
    exact ⟨_, _, rfl, fits⟩

/-- The operator on top finds both of its operands. -/
theorem Settling.operands {op : Operator} (h : Settling r (.operator op :: m) o)
    (counted : Counted r) :
    ∃ right left p, o = right :: left :: p ∧ Fits m p.length := by
  obtain ⟨right, q, rfl, fits⟩ := h.fits counted
  obtain ⟨n, total, fits⟩ := fits.below_operator
  obtain ⟨left, p, rfl⟩ := List.exists_cons_of_length_eq_add_one total
  obtain rfl := Nat.add_right_cancel total
  exact ⟨right, left, p, rfl, fits⟩

/-- Settling never fails, and passes through these stacks alone. -/
theorem Settling.settled (h : Settling r m o) (counted : Counted r) (spot : Cause → Fault)
    (binds : Operator → Bool) : ∃ n p, settle spot binds m o = .ok (n, p) ∧ Settling r n p := by
  induction m generalizing o with
  | nil => exact ⟨[], o, rfl, h⟩
  | cons mark m ih =>
    cases mark with
    | group f base offset => exact ⟨_, o, rfl, h⟩
    | operator op =>
      cases hop : binds op with
      | false => exact ⟨_, o, settle_stop hop spot m o, h⟩
      | true =>
        obtain ⟨right, left, p, rfl, -⟩ := h.operands counted
        rw [settle_join hop]
        exact ih h.join

/-- What settling comes to does not depend on the moment from which it goes on. -/
theorem Settling.settle_eq (h : Settling r m o) (spot : Cause → Fault) :
    settle spot (fun _ => true) r.marks r.operands = settle spot (fun _ => true) m o := by
  induction h with
  | start _ => rfl
  | join _ ih => rw [ih, settle_join rfl]

/-- What settling all leaves where no operand is due. -/
theorem Counted.settled (counted : Counted r) (due : r.awaitsOperand = false)
    (spot : Cause → Fault) :
    ∃ m o, settle spot (fun _ => true) r.marks r.operands = .ok (m, o) ∧ Settling r m o ∧
      (m = [] ∨ ∃ f base offset rest, m = .group f base offset :: rest) := by
  obtain ⟨m, o, settled, way⟩ := (Settling.start due).settled counted spot fun _ => true
  exact ⟨m, o, settled, way, settle_all_marks settled⟩

/-! ## What settling leaves -/

theorem Settling.parentheses {base offset : Nat}
    (way : Settling r (.group none base offset :: m) o) (counted : Counted r) :
    o.length = base + 1 := by
  obtain ⟨u, p, rfl, fits⟩ := way.fits counted
  rw [List.length_cons, fits.eq_base]

theorem Settling.single (way : Settling r [] o) (counted : Counted r) : ∃ u, o = [u] := by
  obtain ⟨u, p, rfl, fits⟩ := way.fits counted
  exact ⟨u, by rw [List.length_eq_zero_iff.1 fits.eq_zero]⟩

/-- The text of a term is not empty, and is the part of the roll between the bounds of the open
term. -/
structure Cut (source : Text) (r : Reading) (term : Term) : Prop where
  ne_nil : term.source ≠ []
  stands : term.source.StandsAt term.offset source
  start : r.start = some term.offset
  stop : r.stop = term.offset + term.source.width

/-- Where no operand is due, the term that closes is cut out of the roll. -/
theorem Traced.cut (h : Traced source ts r) (scan : Token.scan source = .ok (ts ++ behind))
    (due : r.awaitsOperand = false) (fallback : Nat) (type : Option Text) (u : Tree) :
    Cut source r (r.closed source fallback type u) := by
  obtain ⟨done, us, rfl, -, start, last, hlast, stop⟩ := h.within_of_due due
  obtain ⟨first, rest, rfl⟩ : ∃ first rest, us = first :: rest :=
    List.exists_cons_of_ne_nil (by rintro rfl; cases hlast)
  obtain ⟨part, ne, stands, stops⟩ := (Token.scan_ok_iff.1 scan).extent rfl hlast
  have offset : (r.closed source fallback type u).offset = first.offset := by
    simp [Reading.closed, start]
  have text : (r.closed source fallback type u).source = part := by
    obtain ⟨before, after, rfl, width⟩ := stands
    simp only [Reading.closed, start, List.head?_cons, Option.map_some, Option.getD_some]
    rw [stop, stops, Nat.max_eq_left (Nat.le_add_right _ _), ← width, Text.slice_append]
  constructor
  case ne_nil => rwa [text]
  case stands => rwa [text, offset]
  case start => rw [start, offset]; rfl
  case stop => rw [stop, stops, text, offset]

/-! ## Why a token is refused -/

/-- The faults of a token that a reading does not take. An operand is missing only where one is due,
and an operator only in front of an atom or a parenthesis, or behind a damage type. -/
inductive Refused (source : Text) (r : Reading) (t : Token) : Fault → Prop
  | uncalled {f : Builtin} {offset : Nat} : r.callee = some (f, offset) → t.lexeme ≠ .opening →
      Refused source r t ⟨.uncalledFunction, f.name, offset⟩
  | behindType : r.afterDamageType = true → t.lexeme ≠ .comma →
      Refused source r t (t.fault .missingOperator)
  | atom {a : Text} : t.lexeme = .atom a → r.awaitsOperand = false →
      ¬(r.last.map (·.lexeme) = some .closing ∧ Tree.isDie a = true) →
      Refused source r t (t.fault .missingOperator)
  | unknown {name : Text} {offset : Nat} : t.lexeme = .opening → r.awaitsOperand = false →
      r.last = some ⟨.atom name, offset⟩ → Refused source r t ⟨.unknownFunction, name, offset⟩
  | opening : t.lexeme = .opening → r.awaitsOperand = false →
      (∀ name offset, r.last ≠ some ⟨.atom name, offset⟩) →
      Refused source r t (t.fault .missingOperator)
  | due : (∃ op, t.lexeme = .operator op) ∨ t.lexeme = .closing ∨ t.lexeme = .comma →
      r.awaitsOperand = true → Refused source r t (t.fault .missingOperand)
  | unmatched {o : List Tree} : t.lexeme = .closing → Settling r [] o →
      Refused source r t (t.fault .unmatchedClosing)
  | miscounted {f : Builtin} {base offset : Nat} {m : List Mark} {o : List Tree} :
      t.lexeme = .closing → Settling r (.group (some f) base offset :: m) o →
      o.length ≠ base + f.arity → Refused source r t ⟨.wrongArgumentCount, f.name, t.offset⟩
  | emptyTerm : t.lexeme = .comma → r.operands = [] → r.marks = [] → r.afterDamageType = false →
      Refused source r t (t.fault .emptyTerm)
  | inParentheses {base offset : Nat} {m : List Mark} {o : List Tree} : t.lexeme = .comma →
      Settling r (.group none base offset :: m) o → Refused source r t (t.fault .unexpectedComma)
  | missingRoll {type : Text} : t.lexeme = .damageType type → r.awaitsOperand = true →
      Refused source r t (t.fault .missingRoll)
  | unclosed {type : Text} {f : Option Builtin} {base offset : Nat} {m : List Mark}
      {o : List Tree} : t.lexeme = .damageType type → Settling r (.group f base offset :: m) o →
      Refused source r t ⟨.unclosedGroup, source.dropBytes offset, offset⟩

/-- The faults of a roll that ends too early. -/
inductive Unfinished (source : Text) (r : Reading) : Fault → Prop
  | uncalled {f : Builtin} {offset : Nat} : r.callee = some (f, offset) →
      Unfinished source r ⟨.uncalledFunction, f.name, offset⟩
  | emptyTerm {offset : Nat} : r.last = some ⟨.comma, offset⟩ → r.marks = [] →
      Unfinished source r ⟨.emptyTerm, [','], offset⟩
  | due : ¬(r.operands = [] ∧ r.marks = []) → r.awaitsOperand = true →
      Unfinished source r ⟨.missingOperand, source, 0⟩
  | unclosed {f : Option Builtin} {base offset : Nat} {m : List Mark} {o : List Tree} :
      Settling r (.group f base offset :: m) o →
      Unfinished source r ⟨.unclosedGroup, source.dropBytes offset, offset⟩
  | emptyRoll : r.operands = [] → r.marks = [] → r.terms = [] →
      Unfinished source r ⟨.emptyRoll, source, 0⟩

section Token

-- Whether a token is taken does not depend on the bounds of the open term, which the token moves.
variable (counted : Counted r) (start : Option Nat) (stop : Nat)

include counted

theorem atom_refused {a : Text} (ht : t.lexeme = .atom a) :
    Faults (Refused source r t) (atom t a { r with start, stop }) := by
  unfold atom
  split
  · split <;> exact faults_ok _
  · rename_i h
    have due : r.awaitsOperand = false := by simpa using h
    split
    · obtain ⟨u, p, e, -⟩ := (Settling.start due).fits counted
      dsimp only
      rw [e]
      exact faults_ok _
    · rename_i die
      exact faults_error (.atom ht due (by simpa using die))

theorem operator_refused {op : Operator} (ht : t.lexeme = .operator op) :
    Faults (Refused source r t) (operator t op { r with start, stop }) := by
  refine Faults.guard (fun due => .due (.inl ⟨op, ht⟩) due) fun h => ?_
  have due : r.awaitsOperand = false := by simpa using h
  obtain ⟨m, o, settled, -⟩ := (Settling.start due).settled counted t.fault fun top =>
    op.strength ≤ top.strength
  dsimp only
  rw [settled]
  exact faults_ok _

/-- Only what follows the settling can be at fault. -/
theorem settleAll_refused {P : Fault → Prop} {α : Type} {spot : Cause → Fault}
    {g : Reading → Except Fault α} (due : r.awaitsOperand = false)
    (behind : ∀ m o, Settling r m o →
      m = [] ∨ (∃ f base offset rest, m = .group f base offset :: rest) →
      Faults P (g { r with start, stop, marks := m, operands := o })) :
    Faults P (settleAll spot { r with start, stop } >>= g) := by
  obtain ⟨m, o, settled, way, top⟩ := counted.settled due spot
  unfold settleAll
  dsimp only
  rw [settled]
  exact behind m o way top

theorem finishTerm_refused {P : Fault → Prop} {spot : Cause → Fault} {fallback : Nat}
    {type : Option Text} (way : Settling r [] o) :
    Faults P (finishTerm source spot fallback type
      { r with start, stop, marks := [], operands := o }) := by
  obtain ⟨u, rfl⟩ := way.single counted
  exact faults_ok _

omit counted in
theorem opening_refused (ht : t.lexeme = .opening) :
    Faults (Refused source r t) (opening t { r with start, stop }) := by
  unfold opening
  split
  · exact faults_ok _
  · rename_i h
    have due : r.awaitsOperand = false := by simpa using h
    split
    · rename_i last
      exact faults_error (.unknown ht due last)
    · rename_i last
      exact faults_error (.opening ht due last)

theorem closing_refused (ht : t.lexeme = .closing) :
    Faults (Refused source r t) (closing t { r with start, stop }) := by
  refine Faults.guard (fun due => .due (.inr (.inl ht)) due) fun h => ?_
  refine settleAll_refused counted start stop (by simpa using h) fun m o way top => ?_
  rcases top with rfl | ⟨f, base, offset, rest, rfl⟩
  · exact faults_error (.unmatched ht way)
  · cases f with
    | none =>
      -- Between parentheses there is exactly one operand, so the count is never wrong.
      have one := way.parentheses counted
      exact Faults.guard (fun count => by simp [one] at count) fun _ => faults_ok _
    | some f =>
      refine Faults.guard (fun count => .miscounted ht way fun e => ?_) fun _ => faults_ok _
      simp [e] at count

theorem comma_refused (ht : t.lexeme = .comma) :
    Faults (Refused source r t) (comma source t { r with start, stop }) := by
  unfold comma
  dsimp only
  split
  · rename_i empty
    obtain ⟨operands, marks⟩ : r.operands = [] ∧ r.marks = [] := by simpa using empty
    split
    · exact faults_ok _
    · rename_i type
      exact faults_error (.emptyTerm ht operands marks (eq_false_of_ne_true type))
  · refine Faults.guard (fun due => .due (.inr (.inr ht)) due) fun h => ?_
    refine settleAll_refused counted start stop (by simpa using h) fun m o way top => ?_
    rcases top with rfl | ⟨f, base, offset, rest, rfl⟩
    · exact finishTerm_refused counted start stop way
    · cases f with
      | none => exact faults_error (.inParentheses ht way)
      | some f => exact faults_ok _

theorem damageType_refused {type : Text} (ht : t.lexeme = .damageType type) :
    Faults (Refused source r t) (damageType source t type { r with start, stop }) := by
  refine Faults.guard (fun due => .missingRoll ht due) fun h => ?_
  refine settleAll_refused counted start stop (by simpa using h) fun m o way top => ?_
  rcases top with rfl | ⟨f, base, offset, rest, rfl⟩
  · exact finishTerm_refused counted start stop way
  · exact faults_error (.unclosed ht way)

theorem handled_refused :
    Faults (Refused source r t) (handled source t { r with start, stop }) := by
  unfold handled
  split <;> rename_i ht
  · exact atom_refused counted start stop ht
  · exact operator_refused counted start stop ht
  · exact opening_refused start stop ht
  · exact closing_refused counted start stop ht
  · exact comma_refused counted start stop ht
  · exact damageType_refused counted start stop ht

end Token

theorem Counted.feed_refused (counted : Counted r) (source : Text) (t : Token) :
    Faults (Refused source r t) (r.feed source t) := by
  by_cases callee : r.callee = none ∨ t.lexeme = .opening
  · rw [feed_of_called callee]
    split
    · rename_i behind
      simp only [Bool.and_eq_true, bne_iff_ne, ne_eq] at behind
      exact faults_error (.behindType behind.1 behind.2)
    · obtain ⟨start, stop, e⟩ := extend_eq r t
      rw [e]
      exact (handled_refused counted start stop).map
  · obtain ⟨uncalled, ht⟩ := not_or.1 callee
    obtain ⟨⟨f, offset⟩, hc⟩ := Option.ne_none_iff_exists'.1 uncalled
    rw [feed_of_uncalled hc ht]
    exact faults_error (.uncalled hc ht)

theorem Counted.closeLast_unfinished (counted : Counted r) (source : Text) :
    Faults (Unfinished source r) (r.closeLast source) := by
  unfold closeLast
  dsimp only
  split
  · rename_i empty
    obtain ⟨operands, marks⟩ : r.operands = [] ∧ r.marks = [] := by simpa using empty
    exact Faults.guard (fun terms => .emptyRoll operands marks (by simpa using terms))
      fun _ => faults_ok _
  · rename_i opened
    refine Faults.guard (fun due => .due (by simpa using opened) due) fun h => ?_
    refine settleAll_refused counted r.start r.stop (by simpa using h) fun m o way top => ?_
    rcases top with rfl | ⟨f, base, offset, rest, rfl⟩
    · obtain ⟨u, rfl⟩ := way.single counted
      exact faults_ok _
    · exact faults_error (.unclosed way)

theorem Counted.finish_unfinished (counted : Counted r) (source : Text) :
    Faults (Unfinished source r) (r.finish source) := by
  rcases hc : r.callee with _ | ⟨f, offset⟩
  · obtain ⟨offset, last, e⟩ := finish_of_called source hc
    rw [e]
    split
    · rename_i comma
      exact faults_error (.emptyTerm (last comma.1) (List.isEmpty_iff.1 comma.2))
    · exact counted.closeLast_unfinished source
  · rw [finish_of_uncalled hc]
    exact faults_error (.uncalled hc)

/-! ## Terms that close -/

/-- A token closes no term, or one, and leaves both stacks empty behind it. -/
theorem Traced.feed_terms {s : Reading} (h : Traced source ts r)
    (scan : Token.scan source = .ok (ts ++ behind)) (fed : r.feed source t = .ok s) :
    s.terms = r.terms ∨ ∃ term, s.terms = term :: r.terms ∧ s.operands = [] ∧ s.marks = [] ∧
      Cut source r term := by
  obtain ⟨-, -, q, step, rfl⟩ := feed_ok_iff.1 fed
  by_cases hc : t.lexeme = .comma
  · simp only [Reading.handled, hc] at step
    rw [extend_of_separator (.inl hc)] at step
    rcases comma_ok_iff.1 step with ⟨-, -, -, rfl⟩ |
      ⟨-, due, m, o, -, ⟨f, base, offset, rest, -, rfl⟩ | ⟨-, u, -, rfl⟩⟩
    · exact .inl rfl
    · exact .inl rfl
    · exact .inr ⟨_, rfl, rfl, rfl, h.cut scan due t.offset none u⟩
  · by_cases hd : ∃ type, t.lexeme = .damageType type
    · obtain ⟨type, hd⟩ := hd
      simp only [Reading.handled, hd] at step
      rw [extend_of_separator (.inr ⟨type, hd⟩)] at step
      obtain ⟨due, u, -, rfl⟩ := damageType_ok_iff.1 step
      exact .inr ⟨_, rfl, rfl, rfl, h.cut scan due t.offset (some type) u⟩
    · obtain ⟨terms, -, -⟩ := handled_frame hc (not_exists.1 hd) step
      exact .inl (by simpa using terms)

theorem Traced.finish_terms {terms : List Term} (h : Traced source ts r)
    (scan : Token.scan source = .ok (ts ++ behind)) (finished : r.finish source = .ok terms) :
    terms = r.terms.reverse ∨ ∃ term, terms = (term :: r.terms).reverse ∧ Cut source r term := by
  obtain ⟨-, -, closed⟩ := finish_ok_iff.1 finished
  obtain ⟨-, -, -, e⟩ | ⟨-, due, u, -, e⟩ := closeLast_ok_iff.1 closed
  · exact .inl e
  · exact .inr ⟨_, e, h.cut scan due source.width none u⟩

/-! ## Every moment of reading -/

/-- Behind the tokens `ts` of the roll `source` the stacks hold whatever the next step takes, and
that step fails for no other reason than those named. -/
structure Supplied (source : Text) (ts : List Token) (r : Reading) : Prop where
  /-- So no count of operands above the base of a group is cut off at zero. -/
  groups : GroupsBelow r.marks r.operands.length
  /-- Settling never fails, whichever operators it joins. -/
  settled : r.awaitsOperand = false → ∀ spot binds, ∃ m o,
    settle spot binds r.marks r.operands = .ok (m, o) ∧ Settling r m o
  /-- An operand that is taken alone, as the count of a die or by a term, is there. -/
  operand : ∀ m o, Settling r m o → ∃ u p, o = u :: p ∧ GroupsBelow m p.length
  /-- Both operands of an operator are there, and none of them lies below an open group. -/
  operator : ∀ op m o, Settling r (.operator op :: m) o →
    ∃ right left p, o = right :: left :: p ∧ GroupsBelow m p.length
  /-- What lies below the base of a group belongs to those around it. -/
  nested : ∀ f base offset m o, Settling r (.group f base offset :: m) o → GroupsBelow m base
  parentheses : ∀ base offset m o, Settling r (.group none base offset :: m) o →
    o.length = base + 1
  call : ∀ f base offset m o, Settling r (.group (some f) base offset :: m) o →
    ∃ arguments, OpenCall f ts arguments ∧ o.length = base + arguments.length ∧
      (o.take arguments.length).reverse = arguments
  /-- Where no group is open, a term closes without a fault. -/
  term : ∀ o, Settling r [] o → ∀ spot fallback type, ∃ s term,
    finishTerm source spot fallback type { r with marks := [], operands := o } = .ok s ∧
      s.operands = [] ∧ s.marks = [] ∧ s.terms = term :: r.terms ∧ Cut source r term
  /-- A token closes one term at most, and only with nothing left on the stacks. -/
  closes : ∀ t s, r.feed source t = .ok s → s.terms = r.terms ∨
    ∃ term, s.terms = term :: r.terms ∧ s.operands = [] ∧ s.marks = [] ∧ Cut source r term
  ends : ∀ terms, r.finish source = .ok terms → terms = r.terms.reverse ∨
    ∃ term, terms = (term :: r.terms).reverse ∧ Cut source r term
  refused : ∀ t, Faults (Refused source r t) (r.feed source t)
  unfinished : Faults (Unfinished source r) (r.finish source)

end Reading

open Reading in
/-- Wherever the reading of a roll has come to, its stacks hold what the next step takes: both
operands of every operator, the one between parentheses, one for each argument of a call, the one of
a term. -/
theorem operands_suffice {source : Text} {ts behind : List Token} {r : Reading}
    (scan : Token.scan source = .ok (ts ++ behind)) (run : feedAll source {} ts = .ok r) :
    Supplied source ts r := by
  have traced : Traced source ts r := Traced.start.feedAll run
  have counted := traced.counted
  constructor
  case groups => exact counted.groupsBelow
  case settled => exact fun due spot binds => (Settling.start due).settled counted spot binds
  case operand =>
    intro m o way
    obtain ⟨u, p, e, fits⟩ := way.fits counted
    exact ⟨u, p, e, fits.groupsBelow⟩
  case operator =>
    intro op m o way
    obtain ⟨right, left, p, e, fits⟩ := way.operands counted
    exact ⟨right, left, p, e, fits.groupsBelow⟩
  case nested =>
    intro f base offset m o way
    obtain ⟨u, p, -, fits⟩ := way.fits counted
    exact fits.nested
  case parentheses => exact fun base offset m o way => way.parentheses counted
  case call =>
    intro f base offset m o way
    exact traced.call way.due (way.settle_eq fun cause => ⟨cause, [], 0⟩)
  case term =>
    intro o way spot fallback type
    obtain ⟨u, rfl⟩ := way.single counted
    exact ⟨_, _, finishTerm_ok_iff.2 ⟨u, rfl, rfl⟩, rfl, rfl, rfl,
      traced.cut scan way.due fallback type u⟩
  case closes => exact fun t s fed => traced.feed_terms scan fed
  case ends => exact fun terms finished => traced.finish_terms scan finished
  case refused => exact counted.feed_refused source
  case unfinished => exact counted.finish_unfinished source

/-- In the second argument of a call, behind a group with a die size, the factors of the product lie
above the first argument, and that above the operand in front of the call. -/
theorem operands_of_open_call :
    ∃ ts r, Token.scan "2d6+max(@pb,(1d4)d8*x)".toList = .ok (ts ++ [⟨.closing, 21⟩]) ∧
      Reading.feedAll "2d6+max(@pb,(1d4)d8*x)".toList {} ts = .ok r ∧
      r.marks = [.operator .multiply, .group (some .max) 1 7, .operator .add] ∧
      r.operands.length = 4 ∧ Reading.Supplied "2d6+max(@pb,(1d4)d8*x)".toList ts r := by
  have scan : Token.scan "2d6+max(@pb,(1d4)d8*x)".toList = .ok
      ([⟨.atom "2d6".toList, 0⟩, ⟨.operator .add, 3⟩, ⟨.atom "max".toList, 4⟩, ⟨.opening, 7⟩,
        ⟨.atom "@pb".toList, 8⟩, ⟨.comma, 11⟩, ⟨.opening, 12⟩, ⟨.atom "1d4".toList, 13⟩,
        ⟨.closing, 16⟩, ⟨.atom "d8".toList, 17⟩, ⟨.operator .multiply, 19⟩,
        ⟨.atom "x".toList, 20⟩] ++ [⟨.closing, 21⟩]) := by
    decide +kernel
  exact ⟨_, _, scan, rfl, rfl, rfl, operands_suffice scan rfl⟩

end RulesText.Roll
