/-
Showing a tree and reading a roll undo each other. The text of a tree scans to the tokens of a
factor of the grammar, which is read back as the tree; and what is read from any roll is a tree that
can be shown that way, unless a literal in it is too large for a double.
-/
import RulesText.Proofs.Number.Numeral
import RulesText.Proofs.Roll.Parse
import RulesText.Proofs.Roll.Scanning

namespace RulesText.Roll

open Number Grammar

namespace Tree

/-! ## Trees that can be shown -/

mutual

/-- Names are atoms that stand for themselves, calls have the arguments that their function takes,
die sizes are die sizes, and numbers are finite and have no sign, not even that of `-0`. -/
def WellFormed : Tree → Prop
  | .number value => ∃ mantissa exponent, form value = .finite false mantissa exponent
  | .name a => Token.IsAtom a ∧ Builtin.ofName? a = none ∧ Decimal.ofLiteral? a = none
  | .binary _ left right => left.WellFormed ∧ right.WellFormed
  | .call f arguments => arguments.length = f.arity ∧ WellFormedAll arguments
  | .dice count die => count.WellFormed ∧ isDie die = true
termination_by structural t => t

/-- All of some trees can be shown. -/
def WellFormedAll : List Tree → Prop
  | [] => True
  | t :: ts => t.WellFormed ∧ WellFormedAll ts
termination_by structural ts => ts

end

mutual

/-- The numbers in a tree. -/
def numbers : Tree → List Float
  | .number value => [value]
  | .name _ => []
  | .binary _ left right => left.numbers ++ right.numbers
  | .call _ arguments => numbersList arguments
  | .dice count _ => count.numbers
termination_by structural t => t

/-- The numbers in some trees. -/
def numbersList : List Tree → List Float
  | [] => []
  | t :: ts => t.numbers ++ numbersList ts
termination_by structural ts => ts

end

/-- No literal in a tree was too large for a double. -/
def InRange (t : Tree) : Prop := ∀ x ∈ t.numbers, form x ≠ .infinite false

theorem leaf_of_literal {a : Text} {d : Decimal} (h : Decimal.ofLiteral? a = some d) :
    leaf a = .number d.toFloat := by
  rw [leaf, h]

theorem leaf_of_name {a : Text} (h : Decimal.ofLiteral? a = none) : leaf a = .name a := by
  rw [leaf, h]

theorem isAtom_of_isDie {die : Text} (h : isDie die = true) : Token.IsAtom die := by
  unfold isDie at h
  split at h
  · rename_i size
    simp only [Bool.and_eq_true, List.all_eq_true] at h
    refine ⟨List.cons_ne_nil _ _, List.all_eq_true.2 fun c hc => ?_⟩
    rcases List.mem_cons.1 hc with rfl | hc
    · decide
    · simp [Token.isAtomChar, Char.isAlphanum, h.2 c hc]
  · cases h

theorem isAtom_exactText {x : Float} {m : Nat} {e : Int} (hx : form x = .finite false m e) :
    Token.IsAtom (exactText x) := by
  obtain ⟨d, literal, -⟩ := exactText_literal hx
  obtain ⟨c, hc, -⟩ := List.any_eq_true.1 (Decimal.any_isDigit_of_ofLiteral? literal)
  refine ⟨List.ne_nil_of_mem hc, List.all_eq_true.2 fun c hc => ?_⟩
  rcases exactText_chars hx hc with digit | point <;> simp [Token.isAtomChar, Char.isAlphanum, *]

/-- No literal is the name of a function. -/
theorem ofName?_of_literal {a : Text} {d : Decimal} (h : Decimal.ofLiteral? a = some d) :
    Builtin.ofName? a = none := by
  rw [Option.eq_none_iff_forall_not_mem]
  intro f hf
  obtain rfl := Builtin.name_of_ofName? hf
  -- A literal has a digit and the name of a function has none.
  have digit := Decimal.any_isDigit_of_ofLiteral? h
  cases f <;> exact absurd digit (by decide)

end Tree

/-! ## Tokens of a shown tree -/

/-- Tokens from byte `start` to byte `stop`. -/
structure Spans (start stop : Nat) (ts : List Token) : Prop where
  first : ts.head?.map (·.offset) = some start
  last : ts.getLast?.map Token.stop = some stop

theorem Spans.concat {start : Nat} {s : Text} {ts : List Token} (l : Lexeme)
    (first : (ts ++ [(⟨l, start + s.width⟩ : Token)]).head?.map (·.offset) = some start) :
    Spans start (start + (s ++ l.text).width) (ts ++ [⟨l, start + s.width⟩]) := by
  refine ⟨first, ?_⟩
  rw [List.getLast?_concat, Text.width_append, ← Nat.add_assoc]
  rfl

theorem binary_sum {v w : List Lexeme} {l r : Tree} (op : Operator) (left : Factor v l)
    (right : Factor w r) : Sum (v ++ .operator op :: w) (.binary op l r) := by
  rcases strength_cases op with h | h
  · exact .more (.product (.factor left)) (strength_sum.1 h) (.factor right)
  · exact .product (.more (.factor left) (strength_product.1 h) right)

theorem arity_pos (f : Builtin) : 0 < f.arity := by cases f <;> decide

theorem isAtom_name (f : Builtin) : Token.IsAtom f.name := by
  cases f <;> exact ⟨by decide, by decide⟩

theorem endsAtom_textRest (ts : List Tree) {rest : Text} (ends : Token.EndsAtom rest) :
    Token.EndsAtom (Tree.textRest ts ++ rest) := by
  cases ts with
  | nil => exact ends
  | cons t ts => exact Token.endsAtom_cons rfl _

namespace Tree

open Token

mutual

theorem text_scans : ∀ t : Tree, t.WellFormed → ∀ (offset : Nat) (rest : Text), EndsAtom rest →
    ∃ ts, Scans offset t.text ts rest ∧ Spans offset (offset + t.text.width) ts ∧
      Factor (ts.map (·.lexeme)) t
  | .number value, h => by
    intro offset rest ends
    obtain ⟨m, e, hx⟩ := h
    obtain ⟨d, literal, eq⟩ := exactText_literal hx
    have leaf := Factor.leaf (ofName?_of_literal literal)
    rw [leaf_of_literal literal, eq] at leaf
    exact ⟨_, scans_atom _ (isAtom_exactText hx) ends, ⟨rfl, rfl⟩, leaf⟩
  | .name a, h => by
    intro offset rest ends
    obtain ⟨atom, function, literal⟩ := h
    have leaf := Factor.leaf function
    rw [leaf_of_name literal] at leaf
    exact ⟨_, scans_atom _ atom ends, ⟨rfl, rfl⟩, leaf⟩
  | .binary op left right, h => by
    intro offset rest ends
    obtain ⟨ls, hl, -, wl⟩ := text_scans left h.1 _
      ([' '] ++ ([op.sign] ++ ([' '] ++ (right.text ++ ([')'] ++ rest))))) (endsAtom_cons rfl _)
    obtain ⟨rs, hr, -, wr⟩ := text_scans right h.2 _ ([')'] ++ rest) (endsAtom_cons rfl _)
    -- In front of every piece that may end with an atom stands a blank or a parenthesis.
    have shown : (Tree.binary op left right).text =
        ['('] ++ left.text ++ [' '] ++ [op.sign] ++ [' '] ++ right.text ++ [')'] := by simp [text]
    have scans := ((((((scans_opening offset _).append hl).append (scans_blank _ _)).append
      (scans_operator op _ _)).append (scans_blank _ _)).append hr).append (scans_closing _ rest)
    have word := Factor.group (.parentheses (binary_sum op wl wr))
    rw [shown]
    exact ⟨_, scans, Spans.concat .closing rfl, by simpa using word⟩
  | .call f arguments, h => by
    intro offset rest ends
    obtain ⟨arity, all⟩ := h
    have some_argument : arguments ≠ [] := by
      rintro rfl
      exact (arity_pos f).ne arity
    obtain ⟨ts, ha, wa⟩ := textList_scans arguments all some_argument _ ([')'] ++ rest)
      (endsAtom_cons rfl _)
    have shown : (Tree.call f arguments).text =
        f.name ++ ['('] ++ textList arguments ++ [')'] := by simp [text]
    have scans := (((scans_atom offset (isAtom_name f) (endsAtom_cons rfl _)).append
      (scans_opening _ _)).append ha).append (scans_closing _ rest)
    have word := Factor.group (.call wa arity)
    rw [shown]
    exact ⟨_, scans, Spans.concat .closing rfl, by simpa using word⟩
  | .dice count die, h => by
    intro offset rest ends
    obtain ⟨ts, hc, -, wc⟩ := text_scans count h.1 _ ([')'] ++ (die ++ rest)) (endsAtom_cons rfl _)
    have shown : (Tree.dice count die).text = ['('] ++ count.text ++ [')'] ++ die := by
      simp [text]
    have scans := (((scans_opening offset _).append hc).append (scans_closing _ _)).append
      (scans_atom _ (isAtom_of_isDie h.2) ends)
    have word := Factor.dice (.parentheses (.product (.factor wc))) h.2
    rw [shown]
    exact ⟨_, scans, Spans.concat (.atom die) rfl, by simpa using word⟩

theorem textList_scans : ∀ us : List Tree, WellFormedAll us → us ≠ [] →
    ∀ (offset : Nat) (rest : Text), EndsAtom rest →
    ∃ ts, Scans offset (textList us) ts rest ∧ Arguments (ts.map (·.lexeme)) us
  | [], _, h => absurd rfl h
  | u :: us, h, _ => by
    intro offset rest ends
    obtain ⟨ts, hu, -, word⟩ := text_scans u h.1 offset (textRest us ++ rest)
      (endsAtom_textRest us ends)
    obtain ⟨vs, hus, words⟩ := textRest_scans us h.2 _ rest ends
    exact ⟨_, hu.append hus, by simpa using words (.one (.product (.factor word)))⟩

theorem textRest_scans : ∀ us : List Tree, WellFormedAll us →
    ∀ (offset : Nat) (rest : Text), EndsAtom rest →
    ∃ ts, Scans offset (textRest us) ts rest ∧ ∀ {v : List Lexeme} {vs : List Tree},
      Arguments v vs → Arguments (v ++ ts.map (·.lexeme)) (vs ++ us)
  | [], _ => by
    intro offset rest _
    exact ⟨[], fun seen => rfl, fun arguments => by simpa using arguments⟩
  | u :: us, h => by
    intro offset rest ends
    obtain ⟨ts, hu, -, word⟩ := text_scans u h.1 _ (textRest us ++ rest)
      (endsAtom_textRest us ends)
    obtain ⟨ws, hus, words⟩ := textRest_scans us h.2 _ rest ends
    have scans := (((scans_comma offset _).append (scans_blank _ _)).append hu).append hus
    refine ⟨_, by simpa [textRest] using scans, fun arguments => ?_⟩
    have next := words (arguments.more (.product (.factor word)))
    simpa using next

end

end Tree

/-- A roll that is read as one term without a damage type is that term from its first token to its
last one. -/
theorem Reading.Whole.single {source : Text} {ts : List Token} {term : Term} {start stop : Nat}
    (h : Whole source ts [term]) (bare : term.damageType = none) (spans : Spans start stop ts) :
    term.source = source.slice start (max stop start) ∧ term.offset = start := by
  cases h with
  | mk closed tokens =>
    -- There is no other term, so all tokens are of this one.
    cases closed
    cases tokens with
    | bare _ hfirst hlast =>
      obtain ⟨first, last⟩ := spans
      rw [List.nil_append] at first last
      rw [hfirst] at first
      rw [hlast] at last
      cases first
      cases last
      exact ⟨rfl, rfl⟩
    | typed _ _ _ _ => cases bare

/-- A sum whose tokens reach from the beginning of a text to its end is read as the only term. -/
theorem parse_single {source : Text} {ts : List Token} {u : Tree}
    (scan : Token.scan source = .ok ts) (spans : Spans 0 source.width ts)
    (sum : Sum (ts.map (·.lexeme)) u) : parse source = .ok [⟨u, none, source, 0⟩] := by
  obtain ⟨terms, read, contents⟩ := parse_of_damage scan (.one (.bare sum))
  obtain ⟨term, rfl, content⟩ := List.map_eq_singleton_iff.1 contents
  obtain ⟨tokens, newest, scan', e, whole⟩ := parse_whole read
  rw [scan] at scan'
  cases scan'
  obtain rfl : newest = [term] := by simpa using (congrArg List.reverse e).symm
  obtain ⟨expression, bare⟩ := Prod.mk.inj content
  obtain ⟨part, offset⟩ := whole.single bare spans
  have slice := Text.slice_append [] source []
  rw [List.nil_append, List.append_nil, Text.width_nil, Nat.zero_add] at slice
  rw [Nat.max_eq_left (Nat.zero_le _), slice] at part
  rw [read]
  show Except.ok [(⟨term.expression, term.damageType, term.source, term.offset⟩ : Term)] = _
  rw [expression, bare, part, offset]

theorem parse_text {t : Tree} (h : t.WellFormed) : parse t.text = .ok [⟨t, none, t.text, 0⟩] := by
  obtain ⟨ts, scans, spans, word⟩ := Tree.text_scans t h 0 [] Token.endsAtom_nil
  rw [Nat.zero_add] at spans
  exact parse_single scans.scan spans (.product (.factor word))

/-! ## Trees that are read -/

namespace Tree

theorem wellFormedAll_iff {ts : List Tree} : WellFormedAll ts ↔ ∀ t ∈ ts, t.WellFormed := by
  induction ts with
  | nil => simp [WellFormedAll]
  | cons t ts ih => simp [WellFormedAll, ih]

theorem mem_numbersList {x : Float} {ts : List Tree} :
    x ∈ numbersList ts ↔ ∃ t ∈ ts, x ∈ t.numbers := by
  induction ts with
  | nil => simp [numbersList]
  | cons t ts ih => simp [numbersList, ih]

theorem wellFormed_leaf {a : Text} (atom : Token.IsAtom a) (function : Builtin.ofName? a = none)
    (range : (leaf a).InRange) : (leaf a).WellFormed := by
  cases literal : Decimal.ofLiteral? a with
  | some d =>
    rw [leaf_of_literal literal] at range ⊢
    exact (form_nearest _ _).resolve_left (range d.toFloat (List.mem_singleton.2 rfl))
  | none =>
    rw [leaf_of_name literal]
    exact ⟨atom, function, literal⟩

theorem inRange_binary {op : Operator} {left right : Tree} :
    (Tree.binary op left right).InRange ↔ left.InRange ∧ right.InRange := by
  simp only [InRange, numbers, List.forall_mem_append]

end Tree

/-- Trees that are made of atoms can be shown, unless a literal is too large for a double. -/
theorem builds_wellFormed : Builds Token.IsAtom fun t => t.InRange → t.WellFormed where
  leaf function atom := Tree.wellFormed_leaf atom function
  binary _ _ _ hl hr range :=
    have ⟨left, right⟩ := Tree.inRange_binary.1 range
    ⟨hl left, hr right⟩
  call arity hts range := ⟨arity, Tree.wellFormedAll_iff.2 fun t mem =>
    hts t mem fun x hx => range x (Tree.mem_numbersList.2 ⟨t, mem, hx⟩)⟩
  dice die _ ht range := ⟨ht range, die⟩

theorem wellFormed_of_parse {source : Text} {terms : List Term} (h : parse source = .ok terms)
    {term : Term} (mem : term ∈ terms) (range : term.expression.InRange) :
    term.expression.WellFormed :=
  built_of_parse builds_wellFormed h
    (fun _ scan _ hτ _ e => Token.isAtom_of_scan scan hτ e) term mem range

/-- Showing and reading undo each other. A tree that can be shown is read from its text as the only
term, without a damage type, and with the whole text as its source; and what is read from any roll
is such a tree unless a literal in it was too large for a double. -/
theorem text_parse_inverse :
    (∀ t : Tree, t.WellFormed → parse t.text = .ok [⟨t, none, t.text, 0⟩]) ∧
    ∀ (source : Text) (terms : List Term), parse source = .ok terms → ∀ term ∈ terms,
      term.expression.InRange → term.expression.WellFormed :=
  ⟨fun _ h => parse_text h, fun _ _ h _ mem range => wellFormed_of_parse h mem range⟩

/-- Dice over a sum are shown and read back, and a typed roll with a call in it is read to such
trees. -/
theorem dice_shown_call_read :
    (let t : Tree := .dice (.binary .add (.name "@pb".toList) (.number 2.5)) "d4".toList;
      parse t.text = .ok [⟨t, none, t.text, 0⟩]) ∧
    ∃ terms, parse "max(1, @pb)d6 * 2.50 [fire]".toList = .ok terms ∧
      ∀ term ∈ terms, term.expression.WellFormed := by
  constructor
  · have value : form 2.5 = .finite false 5629499534213120 (-51) := by decide +kernel
    exact text_parse_inverse.1 _
      ⟨⟨⟨⟨by decide, by decide⟩, by decide, by decide⟩, _, _, value⟩, by decide⟩
  · have range : (match parse "max(1, @pb)d6 * 2.50 [fire]".toList with
        | .ok terms => terms.all fun term =>
          term.expression.numbers.all fun x => form x != .infinite false
        | .error _ => false) = true := by decide +kernel
    cases read : parse "max(1, @pb)d6 * 2.50 [fire]".toList with
    | error fault =>
      rw [read] at range
      exact absurd range Bool.false_ne_true
    | ok terms =>
      rw [read] at range
      simp only [List.all_eq_true, bne_iff_ne] at range
      exact ⟨terms, rfl, fun term mem =>
        text_parse_inverse.2 _ terms read term mem (range term mem)⟩

end RulesText.Roll
