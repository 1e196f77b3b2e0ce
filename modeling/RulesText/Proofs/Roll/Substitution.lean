/-
Rolls in which the words for the rank are replaced by the digits of its level. The replacement is one
of the text: the new roll can be read if the old one can, and is worked out at every rank to what the
old one is worked out to at the rank that was written (`evaluate_withRank`).
-/
import RulesText.Proofs.Number.Numeral
import RulesText.Proofs.Roll.Atoms
import RulesText.Proofs.Roll.Meaning
import RulesText.Proofs.Roll.RoundTrip
import RulesText.Proofs.Roll.Translation

namespace RulesText.Roll

open Number
open List (Forall₂)

/-! ## Digits of the rank -/

/-- An atom with the digits of the level in place of a word for the rank. -/
def digitsForRank (rank : Rank) (a : Text) : Text :=
  if isRankReference a then Text.numeral rank.level.toInt.toNat else a

/-- A roll with the digits of the level in place of every atom that is a word for the rank. Longer
atoms and damage types stay as they are. -/
def withRank (rank : Rank) (roll : Text) : Text := Token.mapAtoms (digitsForRank rank) roll

theorem isRankReference_iff {a : Text} :
    isRankReference a = true ↔ a = "@item.level".toList ∨ a = "@item.rank".toList := by
  simp only [isRankReference, Bool.or_eq_true, decide_eq_true_eq]

theorem isAtom_numeral (k : Nat) : Token.IsAtom (Text.numeral k) :=
  ⟨Decimal.numeral_ne_nil k, List.all_eq_true.2 fun c hc => by
    simp [Token.isAtomChar, Char.isAlphanum, List.all_eq_true.1 (Decimal.numeral_all k) c hc]⟩

theorem isAtom_digitsForRank (rank : Rank) {a : Text} (h : Token.IsAtom a) :
    Token.IsAtom (digitsForRank rank a) := by
  unfold digitsForRank
  split
  · exact isAtom_numeral _
  · exact h

theorem ofLiteral?_numeral (k : Nat) : Decimal.ofLiteral? (Text.numeral k) = some ⟨k, 0⟩ := by
  rw [Decimal.ofLiteral?_digits (Decimal.numeral_all k) (Decimal.numeral_ne_nil k)]
  have := Decimal.digitsValue_append_zeros k 0
  simp_all

/-- The digits of a level that is not negative are read as its number. -/
theorem leaf_numeral {rank : Rank} (h : 0 ≤ rank.level.toInt) :
    Tree.leaf (Text.numeral rank.level.toInt.toNat) = .number rank.number := by
  rw [Tree.leaf_of_literal (ofLiteral?_numeral _), Rank.number]
  have sign : ¬ rank.level.toInt < 0 := by omega
  have size : rank.level.toInt.toNat = rank.level.toInt.natAbs := by omega
  simp [Decimal.toFloat, signed, sign, size, power]

theorem leaf_reference {a : Text} (h : isRankReference a = true) : Tree.leaf a = .name a := by
  rcases isRankReference_iff.1 h with rfl | rfl <;> exact Tree.leaf_of_name (by decide)

/-! ## Expressions with the same values -/

/-- The values of one expression at the rank `m` are those of another at the rank `n`. -/
def SameValues (m n : Rank) (t u : Tree) : Prop := ∀ v, t.HasValue m v ↔ u.HasValue n v

namespace Tree

variable {m n : Rank} {v : Value}

theorem HasValue.binary_mono {op : Operator} {l l' r r' : Tree}
    (hl : ∀ v, l.HasValue m v → l'.HasValue n v) (hr : ∀ v, r.HasValue m v → r'.HasValue n v)
    (h : (Tree.binary op l r).HasValue m v) : (Tree.binary op l' r').HasValue n v := by
  cases h with
  | binary left right happly => exact .binary (hl _ left) (hr _ right) happly

theorem HasValue.dice_mono {t u : Tree} {die : Text} (ht : ∀ v, t.HasValue m v → u.HasValue n v)
    (h : (Tree.dice t die).HasValue m v) : (Tree.dice u die).HasValue n v := by
  cases h with
  | dice _ count truth => exact .dice die (ht _ count) truth

theorem HasValue.call_mono {f : Builtin} {ts us : List Tree} {v : Value} :
    Forall₂ (fun t u => ∀ v, t.HasValue m v → u.HasValue n v) ts us →
      (Tree.call f ts).HasValue m v → (Tree.call f us).HasValue n v
  | .cons ht .nil, .ceil h => .ceil (ht _ h)
  | .cons ht .nil, .floor h => .floor (ht _ h)
  | .cons ht (.cons hu .nil), .gte h h' => .gte (ht _ h) (hu _ h')
  | .cons ht (.cons hu .nil), .max h h' => .max (ht _ h) (hu _ h')
  | .cons hc (.cons hyes (.cons _ .nil)), .yes _ h h' => .yes _ (hc _ h) (hyes _ h')
  | .cons hc (.cons _ (.cons hno .nil)), .no _ h h' => .no _ (hc _ h) (hno _ h')

end Tree

theorem SameValues.binary {m n : Rank} (op : Operator) {l l' r r' : Tree}
    (hl : SameValues m n l l') (hr : SameValues m n r r') :
    SameValues m n (.binary op l r) (.binary op l' r') := fun _ =>
  ⟨.binary_mono (fun v => (hl v).1) fun v => (hr v).1,
    .binary_mono (fun v => (hl v).2) fun v => (hr v).2⟩

theorem SameValues.dice {m n : Rank} (die : Text) {t u : Tree} (ht : SameValues m n t u) :
    SameValues m n (.dice t die) (.dice u die) := fun _ =>
  ⟨.dice_mono fun v => (ht v).1, .dice_mono fun v => (ht v).2⟩

theorem SameValues.call {m n : Rank} (f : Builtin) {ts us : List Tree}
    (hts : Forall₂ (SameValues m n) ts us) : SameValues m n (.call f ts) (.call f us) := fun _ =>
  ⟨.call_mono (hts.imp fun _ _ ht v => (ht v).1),
    .call_mono (hts.flip.imp fun _ _ ht v => (ht v).2)⟩

/-! ## Expressions without the rank -/

/-- An expression is worked out the same at every rank, faults and journal included. -/
def Tree.RankFree (t : Tree) : Prop := ∀ m n, t.evaluate m = t.evaluate n

theorem rankFree_leaf {a : Text} (h : isRankReference a = false) : (Tree.leaf a).RankFree := by
  intro m n
  cases literal : Decimal.ofLiteral? a with
  | some d =>
    rw [Tree.leaf_of_literal literal]
    rfl
  | none =>
    simp only [Tree.leaf_of_name literal, Tree.evaluate, h, Bool.false_eq_true, if_false]

theorem Tree.RankFree.sameValues {t : Tree} (h : t.RankFree) (m n : Rank) : SameValues m n t t := by
  intro v
  rw [← Tree.evaluate_ok_iff, ← Tree.evaluate_ok_iff, h m n]

theorem Tree.RankFree.binary (op : Operator) {l r : Tree} (hl : l.RankFree) (hr : r.RankFree) :
    (Tree.binary op l r).RankFree := by
  intro m n
  rw [Tree.evaluate, Tree.evaluate, hl m n, hr m n]

theorem Tree.RankFree.dice (die : Text) {t : Tree} (ht : t.RankFree) :
    (Tree.dice t die).RankFree := by
  intro m n
  rw [Tree.evaluate, Tree.evaluate, ht m n]

theorem Tree.RankFree.call (f : Builtin) {ts : List Tree} (hts : ∀ t ∈ ts, t.RankFree) :
    (Tree.call f ts).RankFree := by
  intro m n
  unfold Tree.evaluate
  split
  case h_5 t h | h_6 t h =>
    cases h
    rw [hts t (by simp) m n]
  case h_7 t u h | h_8 t u h =>
    cases h
    rw [hts t (by simp) m n, hts u (by simp) m n]
  case h_9 condition yes no h =>
    cases h
    rw [hts condition (by simp) m n, hts yes (by simp) m n, hts no (by simp) m n]
  case h_10 => rfl
  case h_1 h | h_2 h | h_3 h | h_4 h => cases h

/-! ## Grammar -/

theorem isDie_numeral (k : Nat) : Tree.isDie (Text.numeral k) = false := by
  have digits := Decimal.numeral_all k
  unfold Tree.isDie
  split
  · rename_i e
    rw [e] at digits
    exact absurd digits (by simp)
  · rfl

/-- Writing the digits of the rank leaves functions and die sizes alone, and the values of atoms. -/
theorem translation_digits {n : Rank} (h : 0 ≤ n.level.toInt) (r : Rank) :
    Translation (fun a b => b = digitsForRank n a) (SameValues n r) where
  function := by
    rintro a _ rfl
    unfold digitsForRank
    split
    · rename_i ref
      rw [Tree.ofName?_of_literal (ofLiteral?_numeral _)]
      rcases isRankReference_iff.1 ref with rfl | rfl <;> decide
    · rfl
  die := by
    rintro a _ rfl die
    unfold digitsForRank at die ⊢
    split
    · rename_i ref
      -- Neither a word for the rank nor a row of digits is a die size.
      rw [if_pos ref, isDie_numeral, Bool.or_false] at die
      rcases isRankReference_iff.1 ref with rfl | rfl <;> exact absurd die (by decide)
    · rfl
  leaf := by
    rintro a _ rfl
    cases ref : isRankReference a with
    | true =>
      rw [digitsForRank, if_pos ref, leaf_numeral h, leaf_reference ref]
      intro v
      constructor
      · intro hv
        cases hv with
        | reference _ => exact .number _
        | name free => rw [ref] at free; cases free
      · intro hv
        cases hv
        exact .reference ref
    | false =>
      rw [digitsForRank, ref]
      exact (rankFree_leaf ref).sameValues n r
  binary op _ _ _ _ hl hr := hl.binary op hr
  call f _ _ hts := .call f hts
  dice die _ _ ht := ht.dice die

/-- Atoms that are no words for the rank make expressions without it. -/
theorem builds_rankFree : Grammar.Builds (fun a => isRankReference a = false) Tree.RankFree where
  leaf _ free := rankFree_leaf free
  binary op _ _ hl hr := hl.binary op hr
  call _ hts := .call _ hts
  dice _ _ ht := ht.dice _

/-! ## Rolls -/

variable {roll : Text}

theorem alike_withRank (rank : Rank) (roll : Text) :
    Alike (fun a b => b = digitsForRank rank a) roll (withRank rank roll) := by
  rw [Alike, withRank, Token.lexemes_mapAtoms fun _ => isAtom_digitsForRank rank]
  cases Token.lexemes roll with
  | none => exact .none
  | some w =>
    refine .some (List.forall₂_map_right_iff.2 (List.forall₂_same.2 fun l _ => ?_))
    cases l with
    | atom a => exact .atom rfl
    | _ => exact .same nofun

theorem renderTerms_of_rankFree {terms : List Term} (h : ∀ term ∈ terms, term.expression.RankFree)
    (m n : Rank) : renderTerms m terms = renderTerms n terms := by
  induction terms with
  | nil => rfl
  | cons term terms ih =>
    obtain ⟨free, rest⟩ := List.forall_mem_cons.1 h
    have same : term.render m = term.render n := by rw [Term.render, Term.render, free m n]
    rw [renderTerms, renderTerms, same, ih rest]

theorem rankFree_of_parse {terms : List Term} (read : parse roll = .ok terms)
    (free : ∀ w, Token.lexemes roll = some w → ∀ a, Lexeme.atom a ∈ w → isRankReference a = false) :
    ∀ term ∈ terms, term.expression.RankFree :=
  built_of_parse builds_rankFree read fun tokens scan t mem a e =>
    free _ (Token.lexemes_eq_some_iff.2 ⟨tokens, scan, rfl⟩) a (List.mem_map.2 ⟨t, mem, e⟩)

theorem evaluate_of_rankFree
    (free : ∀ w, Token.lexemes roll = some w → ∀ a, Lexeme.atom a ∈ w → isRankReference a = false)
    (m n : Rank) : evaluate m roll = evaluate n roll := by
  refine Logged.bind_congr_ok fun terms read => ?_
  rw [renderTerms_of_rankFree (rankFree_of_parse read free) m n]

/-- Writing the digits of a level that is not negative for the rank keeps a roll readable or
unreadable, and what it is worked out to at that rank is what the new roll is worked out to at any
rank. A roll without atoms that stand for the rank is worked out the same at every rank. -/
theorem evaluate_withRank (roll : Text) :
    (∀ n : Rank, 0 ≤ n.level.toInt →
      ((∃ terms, parse roll = .ok terms) ↔ ∃ terms, parse (withRank n roll) = .ok terms) ∧
      ∀ (m : Rank) (text : Text), (evaluate n roll).answer = .ok text ↔
        (evaluate m (withRank n roll)).answer = .ok text) ∧
    ((∀ tokens, Token.scan roll = .ok tokens → ∀ t ∈ tokens, ∀ a, t.lexeme = .atom a →
        isRankReference a = false) →
      ∀ m n : Rank, evaluate m roll = evaluate n roll) := by
  constructor
  · intro n hn
    have words := alike_withRank n roll
    refine ⟨⟨?_, ?_⟩, fun m text => ⟨?_, ?_⟩⟩
    · exact parse_ok_of_alike (translation_digits hn n) words
    · exact parse_ok_of_alike (translation_digits hn n).symm words.flip
    · exact evaluate_ok_of_alike (translation_digits hn m) (fun _ _ same v => (same v).1) words
    · exact evaluate_ok_of_alike (translation_digits hn m).symm (fun _ _ same v => (same v).2)
        words.flip
  · intro free m n
    refine evaluate_of_rankFree (fun w hw a ha => ?_) m n
    obtain ⟨tokens, scan, rfl⟩ := Token.lexemes_eq_some_iff.1 hw
    obtain ⟨t, ht, e⟩ := List.mem_map.1 ha
    exact free tokens scan t ht a e

/-- With 3 written for the level a count of dice is 3 at every rank, while a longer atom and a damage
type keep their words; and a roll that does not mention the rank is the same at every rank. -/
theorem level_three :
    (∀ m, (evaluate m "(3)d4 + @item.leveld4[@item.rank]".toList).answer =
      .ok "3d4 + @item.leveld4 @item.rank".toList) ∧
    ∀ m n, evaluate m "2d6+1 [fire]".toList = evaluate n "2d6+1 [fire]".toList := by
  constructor
  · intro m
    have value : (evaluate ⟨3⟩ "(@item.level)d4 + @item.leveld4[@item.rank]".toList).answer =
        .ok "3d4 + @item.leveld4 @item.rank".toList := by decide +kernel
    have written : withRank ⟨3⟩ "(@item.level)d4 + @item.leveld4[@item.rank]".toList =
        "(3)d4 + @item.leveld4[@item.rank]".toList := by decide +kernel
    have replaced := (((evaluate_withRank _).1 ⟨3⟩ (by decide)).2 m _).1 value
    rwa [written] at replaced
  · refine (evaluate_withRank _).2 fun tokens scan t mem a ha => ?_
    have read : Token.scan "2d6+1 [fire]".toList = .ok [⟨.atom "2d6".toList, 0⟩,
        ⟨.operator .add, 3⟩, ⟨.atom "1".toList, 4⟩, ⟨.damageType "fire".toList, 6⟩] := by
      decide +kernel
    obtain rfl := Except.ok.inj (scan.symm.trans read)
    simp only [List.mem_cons, List.not_mem_nil, or_false] at mem
    rcases mem with rfl | rfl | rfl | rfl <;> cases ha <;> decide

end RulesText.Roll
