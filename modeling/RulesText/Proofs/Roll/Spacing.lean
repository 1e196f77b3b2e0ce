/-
How tokens lie in a text: with blanks in front of each and behind the last, and so that no atom goes
on behind its end. A text is scanned to exactly the tokens that lie in it so (`scan_ok_iff`).
So a text can be taken apart with its tokens, and each part is scanned by itself to its own.
-/
import RulesText.Proofs.Roll.Joining

namespace RulesText

/-- A text of blanks. -/
def Text.Layout (t : Text) : Prop := ∀ c ∈ t, isLayout c = true

theorem Text.layout_nil : Layout [] := by simp [Layout]

namespace Roll

open Text (Layout)

/-! ## Lexemes -/

/-- The lexeme can be read in front of `rest`, and is read no further. -/
def Lexeme.EndsBefore (rest : Text) : Lexeme → Prop
  | .atom a => Token.IsAtom a ∧ Token.EndsAtom rest
  | .damageType type => ']' ∉ type
  | _ => True

/-- Whether a lexeme ends depends on the first character behind it alone, and it ends in front of
every blank. -/
theorem Lexeme.EndsBefore.of_head {l : Lexeme} {rest rest' : Text} (h : l.EndsBefore rest)
    (head : ∀ c ∈ rest'.head?, Text.isLayout c = true ∨ c ∈ rest.head?) : l.EndsBefore rest' := by
  cases l with
  | atom a =>
    refine ⟨h.1, ?_⟩
    cases rest' with
    | nil => exact Token.endsAtom_nil
    | cons c r =>
      refine Token.endsAtom_cons (Bool.eq_false_iff.2 fun hc => ?_) r
      rcases head c rfl with blank | same
      · rw [Token.isLayout_of_isAtomChar hc] at blank
        cases blank
      · obtain ⟨r', rfl⟩ := List.head?_eq_some_iff.1 same
        have ends : Token.EndsAtom (c :: r') := h.2
        simp [Token.EndsAtom, hc] at ends
  | damageType type => exact h
  | operator | opening | closing | comma => trivial

theorem Lexeme.EndsBefore.left {l : Lexeme} {s t : Text} (h : l.EndsBefore (s ++ t)) :
    l.EndsBefore s := by
  refine h.of_head fun c first => .inr ?_
  rw [List.head?_append, first]
  rfl

/-- A lexeme begins and ends with other characters than blanks. -/
theorem Lexeme.EndsBefore.edges {l : Lexeme} {rest : Text} (h : l.EndsBefore rest) :
    l.text ≠ [] ∧ (∀ c ∈ l.text.head?, Text.isLayout c = false) ∧
      ∀ c ∈ l.text.getLast?, Text.isLayout c = false := by
  cases l with
  | atom a =>
    obtain ⟨⟨ne, all⟩, -⟩ := h
    have plain : ∀ c ∈ a, Text.isLayout c = false := fun c mem =>
      Token.isLayout_of_isAtomChar (List.all_eq_true.1 all c mem)
    exact ⟨ne, fun c mem => plain c (List.mem_of_mem_head? mem),
      fun c mem => plain c (List.mem_of_mem_getLast? mem)⟩
  | operator op => cases op <;> simp [Lexeme.text, Operator.sign] <;> decide
  | damageType type =>
    refine ⟨List.cons_ne_nil _ _, fun c mem => ?_, fun c mem => ?_⟩
    · cases mem
      rfl
    · rw [Lexeme.text, List.getLast?_concat] at mem
      cases mem
      rfl
  | opening | closing | comma => simp [Lexeme.text]; decide

namespace Token

variable {offset : Nat} {c : Char} {r rest t u gap : Text} {l : Lexeme}

theorem endsBefore_of_next (h : next offset c r = .ok (l, rest)) : l.EndsBefore rest := by
  unfold next at h
  split at h
  · split at h
    · cases h
    · cases h
      exact not_mem_takeWhile ']' r
  · repeat' split at h
    all_goals cases h
    all_goals first
      | trivial
      | exact ⟨isAtom_takeWhile ‹_› r, endsAtom_dropWhile r⟩

/-- A lexeme is read exactly where its text stands and it ends. -/
theorem next_ok_iff :
    next offset c r = .ok (l, rest) ↔ c :: r = l.text ++ rest ∧ l.EndsBefore rest := by
  refine ⟨fun h => ⟨next_text h, endsBefore_of_next h⟩, fun ⟨e, ends⟩ => ?_⟩
  cases l with
  | atom a =>
    obtain ⟨atom, ends⟩ := ends
    obtain ⟨d, a, rfl⟩ := List.exists_cons_of_ne_nil atom.1
    cases e
    exact next_atom atom ends offset
  | operator op =>
    cases e
    cases op <;> rfl
  | damageType type =>
    simp only [Lexeme.text, List.cons_append, List.append_assoc, List.nil_append] at e
    cases e
    exact next_damageType ends offset rest
  | opening | closing | comma =>
    cases e
    rfl

theorem edges {t : Token} (h : t.lexeme.EndsBefore rest) :
    t.text ≠ [] ∧ (∀ c ∈ t.text.head?, Text.isLayout c = false) ∧
      ∀ c ∈ t.text.getLast?, Text.isLayout c = false :=
  Lexeme.EndsBefore.edges h

/-! ## Tokens in a text -/

/-- The tokens lie in the text, which begins at byte `offset`. -/
inductive Spaced : Nat → Text → List Token → Prop
  | nil {offset : Nat} {gap : Text} : Layout gap → Spaced offset gap []
  | cons {offset : Nat} {gap rest : Text} {t : Token} {ts : List Token} : Layout gap →
      t.offset = offset + gap.width → t.lexeme.EndsBefore rest → Spaced t.stop rest ts →
      Spaced offset (gap ++ t.text ++ rest) (t :: ts)

variable {ts us : List Token} {first last x : Token}

/-- A token in front of others, with no blanks. -/
theorem Spaced.token (ends : x.lexeme.EndsBefore rest) (behind : Spaced x.stop rest ts) :
    Spaced x.offset (x.text ++ rest) (x :: ts) :=
  .cons Text.layout_nil rfl ends behind

theorem Spaced.blank (hc : Text.isLayout c = true) (h : Spaced (offset + 1) t ts) :
    Spaced offset (c :: t) ts := by
  have gaps {gap : Text} (layout : Layout gap) : Layout (c :: gap) := by
    intro d mem
    rcases List.mem_cons.1 mem with rfl | mem
    · exact hc
    · exact layout d mem
  cases h with
  | nil layout => exact .nil (gaps layout)
  | cons layout place ends behind =>
    refine .cons (gaps layout) ?_ ends behind
    rw [place, Text.width_cons, Text.utf8Size_of_isLayout hc, Nat.add_assoc]

theorem scanFrom_gap (h : Layout gap) (offset : Nat) (seen : List Token) (rest : Text) :
    scanFrom offset seen (gap ++ rest) = scanFrom (offset + gap.width) seen rest := by
  induction gap generalizing offset with
  | nil => rfl
  | cons c gap ih =>
    have hc : Text.isLayout c = true := h c List.mem_cons_self
    rw [List.cons_append, scanFrom_layout hc, ih fun d mem => h d (List.mem_cons_of_mem c mem),
      Text.width_cons, Text.utf8Size_of_isLayout hc, Nat.add_assoc]

theorem Spaced.scanFrom (h : Spaced offset t ts) (seen : List Token) :
    scanFrom offset seen t = .ok (seen.reverse ++ ts) := by
  induction h generalizing seen with
  | @nil offset gap layout =>
    have := scanFrom_gap layout offset seen []
    rw [List.append_nil] at this
    simp [this, Token.scanFrom]
  | @cons offset gap rest t ts layout place ends _ ih =>
    obtain ⟨ne, plain, -⟩ := edges ends
    obtain ⟨c, r, text⟩ := List.exists_cons_of_ne_nil ne
    have hc : Text.isLayout c = false := plain c (by rw [text]; rfl)
    have read : next t.offset c (r ++ rest) = .ok (t.lexeme, rest) :=
      next_ok_iff.2 ⟨congrArg (· ++ rest) text.symm, ends⟩
    rw [List.append_assoc, scanFrom_gap layout, ← place, text, List.cons_append,
      scanFrom_next hc read]
    show Token.scanFrom t.stop (t :: seen) rest = _
    rw [ih, List.reverse_cons, List.append_assoc]
    rfl

theorem spaced_of_scanFrom {seen all : List Token} (h : scanFrom offset seen t = .ok all) :
    ∃ ts, Spaced offset t ts ∧ all = seen.reverse ++ ts := by
  fun_induction scanFrom offset seen t with
  | case1 offset seen =>
    cases h
    exact ⟨[], .nil Text.layout_nil, (List.append_nil _).symm⟩
  | case2 offset seen c r layout ih =>
    obtain ⟨ts, spaced, e⟩ := ih h
    exact ⟨ts, spaced.blank layout, e⟩
  | case3 => cases h
  | case4 offset seen c r _ l rest e _ ih =>
    obtain ⟨ts, spaced, rfl⟩ := ih h
    obtain ⟨text, ends⟩ := next_ok_iff.1 e
    refine ⟨⟨l, offset⟩ :: ts, ?_, by simp⟩
    rw [text]
    exact Spaced.token (x := ⟨l, offset⟩) ends spaced

/-- A text is scanned to exactly the tokens that lie in it. -/
theorem scan_ok_iff : scan t = .ok ts ↔ Spaced 0 t ts := by
  constructor
  · intro h
    obtain ⟨ts', spaced, rfl⟩ := spaced_of_scanFrom h
    exact spaced
  · exact fun h => h.scanFrom []

/-! ## Parts of a text -/

/-- At each of its tokens a text is taken apart. -/
theorem Spaced.split (h : Spaced offset t (ts ++ x :: us)) :
    ∃ u rest, t = u ++ x.text ++ rest ∧ Spaced offset u ts ∧ x.offset = offset + u.width ∧
      x.lexeme.EndsBefore rest ∧ Spaced x.stop rest us := by
  induction ts generalizing offset t with
  | nil =>
    cases h with
    | cons layout place ends behind => exact ⟨_, _, rfl, .nil layout, place, ends, behind⟩
  | cons first ts ih =>
    cases h with
    | @cons _ gap _ _ _ layout place ends behind =>
      obtain ⟨u, rest, rfl, spaced, place', ends', behind'⟩ := ih behind
      rw [List.append_assoc] at ends
      refine ⟨gap ++ first.text ++ u, rest, by simp, .cons layout place ends.left spaced, ?_,
        ends', behind'⟩
      rw [place', stop, place, Text.width_append, Text.width_append]
      omega

/-- The last token ends in front of the blanks behind all tokens. -/
theorem Spaced.trim (h : Spaced offset t ts) (hlast : ts.getLast? = some last) :
    ∃ u gap, t = u ++ gap ∧ Layout gap ∧ Spaced offset u ts ∧ last.stop = offset + u.width ∧
      u ≠ [] ∧ ∀ c ∈ u.getLast?, Text.isLayout c = false := by
  induction h with
  | nil => cases hlast
  | @cons offset gap rest t ts layout place ends behind ih =>
    obtain ⟨ne, -, plain⟩ := edges ends
    cases ts with
    | nil =>
      obtain rfl : t = last := Option.some.inj hlast
      cases behind with
      | nil layout' =>
        have alone : Spaced offset (gap ++ t.text ++ []) [t] :=
          .cons layout place (Lexeme.EndsBefore.left (t := rest) ends) (.nil Text.layout_nil)
        rw [List.append_nil] at alone
        refine ⟨gap ++ t.text, rest, rfl, layout', alone, ?_, List.append_ne_nil_of_right_ne_nil _ ne,
          fun c mem => ?_⟩
        · rw [stop, place, Text.width_append, Nat.add_assoc]
        · rw [List.getLast?_append_of_ne_nil _ ne] at mem
          exact plain c mem
    | cons t' ts =>
      rw [List.getLast?_cons_cons] at hlast
      obtain ⟨u, gap', rfl, layout', spaced, stops, ne', plain'⟩ := ih hlast
      refine ⟨gap ++ t.text ++ u, gap', by simp, layout', .cons layout place ends.left spaced,
        ?_, List.append_ne_nil_of_right_ne_nil _ ne', fun c mem => ?_⟩
      · rw [stops, stop, place, Text.width_append, Text.width_append]
        omega
      · rw [List.getLast?_append_of_ne_nil _ ne'] at mem
        exact plain' c mem

/-- The first token begins behind the blanks in front of all tokens. -/
theorem Spaced.front (h : Spaced offset t (first :: ts)) :
    ∃ gap u, t = gap ++ u ∧ Layout gap ∧ first.offset = offset + gap.width ∧
      Spaced first.offset u (first :: ts) ∧ ∀ c ∈ u.head?, Text.isLayout c = false := by
  cases h with
  | @cons _ gap rest _ _ layout place ends behind =>
    obtain ⟨ne, plain, -⟩ := edges ends
    refine ⟨gap, first.text ++ rest, List.append_assoc _ _ _, layout, place, .token ends behind,
      fun c mem => ?_⟩
    rw [List.head?_append_of_ne_nil _ ne] at mem
    exact plain c mem

/-- A part of a text is scanned by itself to its own tokens. -/
theorem Spaced.alone (h : Spaced offset t ts) :
    ∃ us, scan t = .ok us ∧ ts = us.map (moved offset) := by
  have here : Token.scanFrom (0 + offset) ([].map (moved offset) ++ []) t = .ok ts := by
    rw [Nat.zero_add]
    exact h.scanFrom []
  exact (scanFrom_moved t offset 0 [] []).1 here

end Token

end Roll

end RulesText
