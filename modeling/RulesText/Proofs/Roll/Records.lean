/-
The records that a roll leaves when it is worked out. Each is of a product or a quotient of a zero
and words; `Tree.Records` says which of them there are and in which order, for every expression and
wherever it fails, and the journal is exactly that (`evaluate_records`).
-/
import Mathlib.Data.List.Basic
import RulesText.Proofs.Roll.Values
import RulesText.Proofs.Roll.Warnings

namespace RulesText

/-! ## Journals of runs in a row -/

namespace Logged

variable {ε ε' α β : Type} {x : Logged ε α} {f : α → Logged ε β}

theorem journal_bind_ok {a : α} (h : x.answer = .ok a) :
    (x >>= f).journal = x.journal ++ (f a).journal := by
  obtain ⟨j, answer⟩ := x
  obtain rfl : answer = .ok a := h
  rfl

theorem journal_bind_error {e : ε} (h : x.answer = .error e) : (x >>= f).journal = x.journal := by
  obtain ⟨j, answer⟩ := x
  obtain rfl : answer = .error e := h
  rfl

/-- A run with no answer leaves its own records only. -/
theorem journal_bind_of_not_ok (h : ∀ a, x.answer ≠ .ok a) : (x >>= f).journal = x.journal := by
  cases answer : x.answer with
  | error e => exact journal_bind_error answer
  | ok a => exact absurd answer (h a)

theorem journal_bind_silent (h : ∀ a, (f a).journal = []) : (x >>= f).journal = x.journal := by
  obtain ⟨j, _ | a⟩ := x
  · rfl
  · rw [bind_ok, after, h, List.append_nil]

end Logged

namespace Roll

open Logged

/-! ## Operators -/

/-- The record that an operator leaves of two values: a product or quotient has one if one of them
is the number zero, of either sign, and the other one words. -/
def Operator.records (op : Operator) : Value → Value → Journal
  | .number x, .words text | .words text, .number x =>
    if (op = .multiply ∨ op = .divide) ∧ x == 0 then [.zeroIdentity op text] else []
  | _, _ => []

theorem Operator.journal_identity (op : Operator) (other : Value) :
    (op.identity other).journal =
      if op = .multiply ∨ op = .divide then [.zeroIdentity op other.text] else [] := by
  unfold identity
  split <;> rfl

theorem Operator.journal_apply (op : Operator) (l r : Value) :
    (op.apply l r).journal = op.records l r := by
  cases l with
  | number x =>
    cases r with
    | number y => rfl
    | words text =>
      by_cases zero : (x == 0) = true
      · simp [apply, records, Value.isTruth, Value.isZero, zero, journal_identity, Value.text]
      · simp [apply, records, Value.isTruth, Value.isZero, zero]
    | truth b => rfl
  | words text =>
    cases r with
    | number y =>
      by_cases zero : (y == 0) = true
      · simp [apply, records, Value.isTruth, Value.isZero, zero, journal_identity, Value.text]
      · simp [apply, records, Value.isTruth, Value.isZero, zero]
    | words text' => rfl
    | truth b => rfl
  | truth b => rfl

/-! ## Expressions -/

namespace Tree

/-- Working out an expression leaves the records, in the order in which its parts are worked out and
up to the first part that has no value. -/
inductive Records (rank : Rank) : Tree → Journal → Prop
  | number (x : Float) : Records rank (.number x) []
  | name (text : Text) : Records rank (.name text) []
  | binary {op : Operator} {left right : Tree} {l r : Value} {j k : Journal} :
      Records rank left j → left.HasValue rank l → Records rank right k → right.HasValue rank r →
      Records rank (.binary op left right) (j ++ k ++ op.records l r)
  | left {op : Operator} {left : Tree} {j : Journal} (right : Tree) :
      Records rank left j → (∀ l, ¬ left.HasValue rank l) → Records rank (.binary op left right) j
  | right {op : Operator} {left right : Tree} {l : Value} {j k : Journal} :
      Records rank left j → left.HasValue rank l → Records rank right k →
      (∀ r, ¬ right.HasValue rank r) → Records rank (.binary op left right) (j ++ k)
  | dice {count : Tree} {j : Journal} (die : Text) :
      Records rank count j → Records rank (.dice count die) j
  | one {f : Builtin} {t : Tree} {j : Journal} : f = .ceil ∨ f = .floor →
      Records rank t j → Records rank (.call f [t]) j
  | both {f : Builtin} {t u : Tree} {x : Float} {j k : Journal} : f = .gte ∨ f = .max →
      Records rank t j → t.HasValue rank (.number x) → Records rank u k →
      Records rank (.call f [t, u]) (j ++ k)
  | first {f : Builtin} {t : Tree} {j : Journal} (u : Tree) : f = .gte ∨ f = .max →
      Records rank t j → (∀ x, ¬ t.HasValue rank (.number x)) → Records rank (.call f [t, u]) j
  | yes {condition yes : Tree} {j k : Journal} (no : Tree) :
      Records rank condition j → condition.HasValue rank (.truth true) → Records rank yes k →
      Records rank (.call .ternary [condition, yes, no]) (j ++ k)
  | no {condition no : Tree} {j k : Journal} (yes : Tree) :
      Records rank condition j → condition.HasValue rank (.truth false) → Records rank no k →
      Records rank (.call .ternary [condition, yes, no]) (j ++ k)
  | undecided {condition : Tree} {j : Journal} (yes no : Tree) :
      Records rank condition j → (∀ b, ¬ condition.HasValue rank (.truth b)) →
      Records rank (.call .ternary [condition, yes, no]) j
  | miscounted {f : Builtin} {arguments : List Tree} :
      arguments.length ≠ f.arity → Records rank (.call f arguments) []

variable {rank : Rank} {t : Tree} {j : Journal}

theorem journal_expectNumber (t : Tree) (v : Value) : (expectNumber t v).journal = [] := by
  unfold expectNumber
  split <;> rfl

/-- What is done with the last argument leaves no record. -/
theorem journal_last (t : Tree) (result : Float → Value) :
    (do let x ← expectNumber t (← t.evaluate rank); return result x : Logged Fault Value).journal =
      (t.evaluate rank).journal :=
  journal_bind_silent fun v =>
    (journal_bind_silent fun _ => rfl).trans (journal_expectNumber t v)

/-- An argument that has to be a number and is one. -/
theorem journal_number {x : Float} (h : t.HasValue rank (.number x))
    (next : Float → Logged Fault Value) :
    (do let x ← expectNumber t (← t.evaluate rank); next x).journal =
      (t.evaluate rank).journal ++ (next x).journal := by
  rw [journal_bind_ok h.evaluate]
  rfl

/-- Nothing is worked out behind an argument that has to be a number and is none. -/
theorem journal_not_number (h : ∀ x, ¬ t.HasValue rank (.number x))
    (next : Float → Logged Fault Value) :
    (do let x ← expectNumber t (← t.evaluate rank); next x).journal =
      (t.evaluate rank).journal := by
  cases answer : (t.evaluate rank).answer with
  | error fault => exact journal_bind_error answer
  | ok v =>
    rw [journal_bind_ok answer]
    cases v with
    | number x => exact absurd (evaluate_ok_iff.1 answer) (h x)
    | words | truth => exact List.append_nil _

theorem answer_ne_ok (h : ∀ v, ¬ t.HasValue rank v) (v : Value) :
    (t.evaluate rank).answer ≠ .ok v :=
  fun answer => h v (evaluate_ok_iff.1 answer)

/-- The journal of an expression that is worked out is what the rules say. -/
theorem Records.evaluate (h : t.Records rank j) : (t.evaluate rank).journal = j := by
  induction h with
  | number | name => rfl
  | @binary op left right l r j k _ hl _ hr ihl ihr =>
    have applied : ((op.apply l r).mapError fun cause =>
        (⟨cause, (Tree.binary op left right).text, 0⟩ : Fault)).journal = op.records l r :=
      op.journal_apply l r
    rw [Tree.evaluate, journal_bind_ok hl.evaluate, journal_bind_ok hr.evaluate, ihl, ihr, applied,
      List.append_assoc]
  | left right _ none ih => rw [Tree.evaluate, journal_bind_of_not_ok (answer_ne_ok none), ih]
  | right _ hl _ none ihl ihr =>
    rw [Tree.evaluate, journal_bind_ok hl.evaluate, journal_bind_of_not_ok (answer_ne_ok none),
      ihl, ihr]
  | @dice count j die _ ih =>
    rw [Tree.evaluate, journal_bind_silent, ih]
    intro v
    split <;> rfl
  | @one f t j hf _ ih =>
    rcases hf with rfl | rfl <;> rw [Tree.evaluate, journal_last, ih]
  | @both f t u x j k hf _ ht _ iht ihu =>
    rcases hf with rfl | rfl <;> rw [Tree.evaluate, journal_number ht, journal_last, iht, ihu]
  | @first f t j u hf _ none ih =>
    rcases hf with rfl | rfl <;> rw [Tree.evaluate, journal_not_number none, ih]
  | @yes condition yes j k no _ hc _ ihc ihv =>
    rw [Tree.evaluate, journal_bind_ok hc.evaluate, ihc, ← ihv]
  | @no condition no j k yes _ hc _ ihc ihv =>
    rw [Tree.evaluate, journal_bind_ok hc.evaluate, ihc, ← ihv]
  | @undecided condition j yes no _ none ih =>
    rw [Tree.evaluate, ← ih]
    cases answer : (condition.evaluate rank).answer with
    | error fault => exact journal_bind_error answer
    | ok v =>
      rw [journal_bind_ok answer]
      cases v with
      | truth b => exact absurd (evaluate_ok_iff.1 answer) (none b)
      | number | words => exact List.append_nil _
  | @miscounted f arguments count =>
    unfold Tree.evaluate
    split
    case h_10 => rfl
    case h_1 h | h_2 h | h_3 h | h_4 h => cases h
    case h_5 h | h_6 h | h_7 h | h_8 h | h_9 h =>
      cases h
      exact absurd rfl count

/-- The rules cover every expression, wherever it fails. -/
theorem exists_records (rank : Rank) (t : Tree) : ∃ j, t.Records rank j := by
  induction t with
  | number x => exact ⟨[], .number x⟩
  | name text => exact ⟨[], .name text⟩
  | binary op left right ihl ihr =>
    obtain ⟨j, hj⟩ := ihl
    obtain ⟨k, hk⟩ := ihr
    by_cases hl : ∃ l, left.HasValue rank l
    · obtain ⟨l, hl⟩ := hl
      by_cases hr : ∃ r, right.HasValue rank r
      · obtain ⟨r, hr⟩ := hr
        exact ⟨_, .binary hj hl hk hr⟩
      · exact ⟨_, .right hj hl hk (not_exists.1 hr)⟩
    · exact ⟨_, .left right hj (not_exists.1 hl)⟩
  | dice count die ih =>
    obtain ⟨j, hj⟩ := ih
    exact ⟨j, .dice die hj⟩
  | call f arguments ih =>
    by_cases count : arguments.length = f.arity
    · cases f with
      | ceil | floor =>
        obtain ⟨t, rfl⟩ := List.length_eq_one_iff.1 count
        obtain ⟨j, hj⟩ := ih t (by simp)
        exact ⟨j, .one (by simp) hj⟩
      | gte | max =>
        obtain ⟨t, u, rfl⟩ := List.length_eq_two.1 count
        obtain ⟨j, hj⟩ := ih t (by simp)
        obtain ⟨k, hk⟩ := ih u (by simp)
        by_cases ht : ∃ x, t.HasValue rank (.number x)
        · obtain ⟨x, ht⟩ := ht
          exact ⟨_, .both (by simp) hj ht hk⟩
        · exact ⟨j, .first u (by simp) hj (not_exists.1 ht)⟩
      | ternary =>
        obtain ⟨condition, yes, no, rfl⟩ := List.length_eq_three.1 count
        obtain ⟨j, hj⟩ := ih condition (by simp)
        by_cases hc : ∃ b, condition.HasValue rank (.truth b)
        · obtain ⟨_ | _, hc⟩ := hc
          · obtain ⟨k, hk⟩ := ih no (by simp)
            exact ⟨_, .no yes hj hc hk⟩
          · obtain ⟨k, hk⟩ := ih yes (by simp)
            exact ⟨_, .yes no hj hc hk⟩
        · exact ⟨j, .undecided yes no hj (not_exists.1 hc)⟩
    · exact ⟨[], .miscounted count⟩

/-- The records of an expression are exactly those of the rules. -/
theorem records_iff {t : Tree} {j : Journal} :
    t.Records rank j ↔ (t.evaluate rank).journal = j := by
  refine ⟨Records.evaluate, fun h => ?_⟩
  obtain ⟨k, hk⟩ := exists_records rank t
  rwa [← h, hk.evaluate]

/-- A choice is worked out as the branch that its condition picks, behind the condition; what the
other branch is makes no difference. -/
theorem evaluate_ternary {condition yes no : Tree} {b : Bool}
    (h : condition.evaluate rank = ⟨j, .ok (.truth b)⟩) :
    (Tree.call .ternary [condition, yes, no]).evaluate rank =
      Logged.after j (if b then yes.evaluate rank else no.evaluate rank) := by
  rw [Tree.evaluate, h, bind_ok]
  cases b <;> rfl

end Tree

/-! ## Rolls -/

variable {rank : Rank}

/-- The damage type of a term leaves no record. -/
theorem Term.journal_render (rank : Rank) (term : Term) :
    (term.render rank).journal = (term.expression.evaluate rank).journal := by
  rw [render, journal_bind_silent]
  · rfl
  · intro v
    split <;> rfl

/-- The records of terms are those of each, up to the first that fails. -/
theorem journal_renderTerms (rank : Rank) (terms : List Term) :
    ∃ done behind, terms = done ++ behind ∧
      (∀ term ∈ done, ∃ text, (term.render rank).answer = .ok text) ∧
      (∀ term ∈ behind.head?, ∃ fault, (term.render rank).answer = .error fault) ∧
      (renderTerms rank terms).journal =
        (done ++ behind.take 1).flatMap fun term => (term.expression.evaluate rank).journal := by
  induction terms with
  | nil => exact ⟨[], [], rfl, nofun, nofun, rfl⟩
  | cons term terms ih =>
    have own := term.journal_render rank
    cases answer : (term.render rank).answer with
    | error fault =>
      refine ⟨[], term :: terms, rfl, nofun, ?_, ?_⟩
      · rintro _ ⟨⟩
        exact ⟨fault, answer⟩
      · rw [renderTerms, journal_bind_error answer, own]
        simp
    | ok text =>
      obtain ⟨done, behind, rfl, oks, fails, journal⟩ := ih
      refine ⟨term :: done, behind, rfl, List.forall_mem_cons.2 ⟨⟨text, answer⟩, oks⟩, fails, ?_⟩
      rw [renderTerms, journal_bind_ok answer, own]
      exact congrArg (_ ++ ·) journal

theorem journal_evaluate_error {roll : Text} {fault : Fault} (h : parse roll = .error fault) :
    (evaluate rank roll).journal = [] := by
  rw [evaluate, h]
  rfl

theorem journal_evaluate_ok {roll : Text} {terms : List Term} (h : parse roll = .ok terms) :
    (evaluate rank roll).journal = (renderTerms rank terms).journal := by
  rw [evaluate, h]
  rfl

/-- The records of an expression that is worked out are warnings, exactly those of the rules, which
take nothing from the branch that a choice leaves out; nor does anything else of that branch matter.
The records of a roll are those of its terms, up to and with the first that fails, and there are
none if it cannot be read. -/
theorem evaluate_records (rank : Rank) :
    (∀ t : Tree, (t.evaluate rank).Warns ∧
      ∀ j, (t.evaluate rank).journal = j ↔ t.Records rank j) ∧
    (∀ (condition yes no : Tree) (j : Journal) (b : Bool),
      condition.evaluate rank = ⟨j, .ok (.truth b)⟩ →
      (Tree.call .ternary [condition, yes, no]).evaluate rank =
        Logged.after j (if b then yes.evaluate rank else no.evaluate rank)) ∧
    (∀ (roll : Text) (fault : Fault), parse roll = .error fault →
      (evaluate rank roll).journal = []) ∧
    ∀ (roll : Text) (terms : List Term), parse roll = .ok terms →
      ∃ done behind, terms = done ++ behind ∧
        (∀ term ∈ done, ∃ text, (term.render rank).answer = .ok text) ∧
        (∀ term ∈ behind.head?, ∃ fault, (term.render rank).answer = .error fault) ∧
        (evaluate rank roll).journal =
          (done ++ behind.take 1).flatMap fun term => (term.expression.evaluate rank).journal := by
  refine ⟨fun t => ⟨t.evaluate_warns rank, fun j => Tree.records_iff.symm⟩,
    fun condition yes no j b => Tree.evaluate_ternary, fun roll fault => journal_evaluate_error,
    fun roll terms h => ?_⟩
  rw [journal_evaluate_ok h]
  exact journal_renderTerms rank terms

/-- The first term scales dice by `-0`, the second is a comparison and fails, and the third is not
worked out. -/
theorem records_of_three :
    (∃ terms done behind, parse "((0-1)*0)*1d4,gte(1,2),2d6*0".toList = .ok terms ∧
      terms = done ++ behind ∧
      (evaluate {} "((0-1)*0)*1d4,gte(1,2),2d6*0".toList).journal =
        (done ++ behind.take 1).flatMap fun term => (term.expression.evaluate {}).journal) ∧
    (evaluate {} "((0-1)*0)*1d4,gte(1,2),2d6*0".toList).journal =
      [.zeroIdentity .multiply "1d4".toList] ∧
    (evaluate {} "2d6*0,".toList).journal = [] ∧
    (Tree.call .ternary [.call .gte [.number 2, .number 1], .name "1d4".toList,
      .call .max []]).evaluate {} = Logged.after [] ((Tree.name "1d4".toList).evaluate {}) := by
  refine ⟨?_, by decide +kernel, ?_, ?_⟩
  · have ok : (parse "((0-1)*0)*1d4,gte(1,2),2d6*0".toList).isOk = true := by decide +kernel
    cases read : parse "((0-1)*0)*1d4,gte(1,2),2d6*0".toList with
    | error fault =>
      rw [read] at ok
      cases ok
    | ok terms =>
      obtain ⟨done, behind, split, -, -, journal⟩ := (evaluate_records {}).2.2.2 _ terms read
      exact ⟨terms, done, behind, rfl, split, journal⟩
  · have unread : (parse "2d6*0,".toList).isOk = false := by decide +kernel
    cases read : parse "2d6*0,".toList with
    | error fault => exact (evaluate_records {}).2.2.1 _ fault read
    | ok terms =>
      rw [read] at unread
      cases unread
  · have larger : decide ((1 : Float) ≤ 2) = true := by decide +kernel
    exact (evaluate_records {}).2.1 _ _ _ [] true
      (congrArg (fun b => (⟨[], .ok (.truth b)⟩ : Logged Fault Value)) larger)

end Roll

end RulesText
