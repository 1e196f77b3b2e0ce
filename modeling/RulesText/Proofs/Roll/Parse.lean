/-
A roll is read exactly if its tokens are a word of the grammar, and what is read is what the grammar
says. Reading finds every word by `Acceptance`; that it finds nothing else is read off the trace of
the stacks when the roll ends.
-/
import RulesText.Proofs.Roll.Acceptance
import RulesText.Proofs.Roll.Stacks

namespace RulesText.Roll

open Grammar

namespace Reading

variable {source : Text}

theorem Traced.start : Traced source [] {} := by
  show Traced source ([] ++ []) {}
  exact .within .nil (.due Open.term.slot rfl rfl) rfl rfl rfl nofun

theorem Traced.feedAll {ts us : List Token} {r s : Reading} (h : Traced source us r)
    (run : Reading.feedAll source r ts = .ok s) : Traced source (us ++ ts) s := by
  induction ts generalizing us r with
  | nil =>
    cases run
    simpa using h
  | cons t ts ih =>
    obtain ⟨q, step, rest⟩ := bind_eq_ok.1 run
    simpa using ih (h.feed step) rest

/-- The tokens of a whole roll; the terms newest first. -/
inductive Whole (source : Text) : List Token → List Term → Prop
  | mk {done ts : List Token} {terms : List Term} {term : Term} :
      Closed source done terms → TermTokens source ts term →
      Whole source (done ++ ts) (term :: terms)

/-- Behind terms that are all closed, a roll ends with a comma. -/
theorem Closed.getLast? {done : List Token} {terms : List Term} (h : Closed source done terms)
    (some_term : terms ≠ []) : done.getLast?.map (·.lexeme) = some .comma := by
  cases h with
  | nil => exact absurd rfl some_term
  | cons _ _ ht => simp [ht]

theorem Traced.finish {ts : List Token} {r : Reading} {terms : List Term}
    (h : Traced source ts r) (finished : r.finish source = .ok terms) :
    ∃ newest, terms = newest.reverse ∧ Whole source ts newest := by
  obtain ⟨callee, separated, ended⟩ := finish_ok_iff.1 finished
  obtain ⟨ho, hm, hterms, rfl⟩ | ⟨opened, due, u, settled, rfl⟩ := closeLast_ok_iff.1 ended
  · refine ⟨r.terms, rfl, ?_⟩
    cases h with
    | @within done ts r closed stage start last unclosed stop =>
      -- Nothing is open, so the last token is a comma, behind which no roll ends.
      obtain rfl : ts = [] := List.map_eq_nil_iff.1 (stage.eq_nil callee ho hm)
      rw [List.append_nil] at last
      exact absurd hm (separated (by rw [last, closed.getLast? hterms]))
    | typed closed tokens e _ _ _ _ _ _ _ =>
      rw [e]
      exact .mk closed tokens
  · refine ⟨_, rfl, ?_⟩
    cases h with
    | @within done ts r closed stage start last unclosed stop =>
      obtain ⟨u', hu, sum⟩ := stage.sum due settled
      cases hu
      obtain ⟨first, final, hfirst, hfinal, e⟩ :=
        closed_eq_spelled source none source.width sum start (stop due)
      rw [e]
      exact .mk closed (.bare sum hfirst hfinal)
    | typed _ _ _ marks operands _ _ _ _ _ => exact absurd ⟨operands, marks⟩ opened

/-! ## The grammar's view -/

theorem TermTokens.entry {ts : List Token} {term : Term} (h : TermTokens source ts term) :
    Entry (ts.map (·.lexeme)) term.content := by
  cases h with
  | bare sum _ _ => exact .bare sum
  | typed sum _ _ ht =>
    rw [List.map_append, List.map_singleton, ht]
    exact .typed _ sum

/-- Closed terms make every entry behind them a roll. -/
theorem Closed.damage {done : List Token} {terms : List Term} (h : Closed source done terms)
    {w : List Lexeme} {p : Tree × Option Text} (entry : Entry w p) :
    Damage (done.map (·.lexeme) ++ w) (terms.reverse.map Term.content ++ [p]) := by
  induction h generalizing w p with
  | nil => exact .one entry
  | cons _ tokens ht ih =>
    have next := Damage.more (ih tokens.entry) entry
    simpa [ht] using next

theorem Whole.damage {ts : List Token} {newest : List Term} (h : Whole source ts newest) :
    Damage (ts.map (·.lexeme)) (newest.reverse.map Term.content) := by
  cases h with
  | mk closed tokens => simpa using closed.damage tokens.entry

end Reading

/-- What a roll that is read says of its tokens. -/
theorem parse_whole {source : Text} {terms : List Term} (h : parse source = .ok terms) :
    ∃ tokens newest, Token.scan source = .ok tokens ∧ terms = newest.reverse ∧
      Reading.Whole source tokens newest := by
  obtain ⟨tokens, scan, h⟩ := bind_eq_ok.1 h
  obtain ⟨r, run, finished⟩ := bind_eq_ok.1 h
  obtain ⟨newest, e, whole⟩ := (Reading.Traced.start.feedAll run).finish finished
  exact ⟨tokens, newest, scan, e, whole⟩

/-- A word of the grammar is read as the grammar says. -/
theorem parse_of_damage {source : Text} {tokens : List Token} {ps : List (Tree × Option Text)}
    (scan : Token.scan source = .ok tokens) (damage : Damage (tokens.map (·.lexeme)) ps) :
    ∃ terms, parse source = .ok terms ∧ terms.map Term.content = ps := by
  obtain ⟨r, run, ended⟩ := Reading.damage_run damage rfl
  obtain ⟨terms, finished, e⟩ := Reading.finish_ended ended
  exact ⟨terms, bind_eq_ok.2 ⟨tokens, scan, bind_eq_ok.2 ⟨r, run, finished⟩⟩, e⟩

/-- A roll is read, and to the terms `ps`, exactly if its text is made of tokens that the grammar
takes for `ps`: for the trees of its terms and their damage types, in order. -/
theorem parse_iff_damage (source : Text) (ps : List (Tree × Option Text)) :
    (∃ terms, parse source = .ok terms ∧ terms.map Term.content = ps) ↔
      ∃ tokens, Token.scan source = .ok tokens ∧ Damage (tokens.map (·.lexeme)) ps := by
  constructor
  · rintro ⟨terms, h, rfl⟩
    obtain ⟨tokens, newest, scan, rfl, whole⟩ := parse_whole h
    exact ⟨tokens, scan, whole.damage⟩
  · rintro ⟨tokens, scan, damage⟩
    exact parse_of_damage scan damage

/-- The expressions of a roll are made of its atoms. -/
theorem built_of_parse {P : Text → Prop} {Q : Tree → Prop} (h : Builds P Q) {source : Text}
    {terms : List Term} (read : parse source = .ok terms)
    (atoms : ∀ tokens, Token.scan source = .ok tokens →
      ∀ t ∈ tokens, ∀ a, t.lexeme = .atom a → P a) : ∀ term ∈ terms, Q term.expression := by
  obtain ⟨tokens, newest, scan, rfl, whole⟩ := parse_whole read
  have built := whole.damage.built h fun a ha => by
    obtain ⟨t, mem, e⟩ := List.mem_map.1 ha
    exact atoms tokens scan t mem a e
  exact fun term mem => built _ (List.mem_map_of_mem mem)

end RulesText.Roll
