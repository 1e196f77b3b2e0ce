/-
Two rolls with a comma between them. Scanning comes to the comma with no atom open, so the whole has
the tokens of both rolls (`Token.scan_joined`); reading comes to it with no term open, so the whole
is read exactly if the second roll is, and to the terms of both (`parse_joined`).
-/
import RulesText.Proofs.Roll.Atoms
import RulesText.Proofs.Roll.Commas
import RulesText.Proofs.Roll.Faults
import RulesText.Proofs.Roll.Meaning

namespace RulesText

/-! ## Parts of a text -/

namespace Text

theorem takeBytes_append_left {n : Nat} {t : Text} (u : Text) (h : n ≤ t.width) :
    takeBytes n (t ++ u) = takeBytes n t := by
  induction t generalizing n with
  | nil =>
    obtain rfl : n = 0 := by simpa using h
    simp [takeBytes]
  | cons c t ih =>
    cases n with
    | zero => rfl
    | succ n =>
      rw [width_cons] at h
      rw [List.cons_append, takeBytes, takeBytes, ih (by omega)]

theorem dropBytes_append_right (s t : Text) (n : Nat) :
    dropBytes (s.width + n) (s ++ t) = dropBytes n t := by
  induction s with
  | nil => rw [width_nil, Nat.zero_add, List.nil_append]
  | cons c s ih =>
    have hc := c.utf8Size_pos
    obtain ⟨m, hm⟩ : ∃ m, c.utf8Size + width s + n = m + 1 :=
      ⟨c.utf8Size + width s + n - 1, by omega⟩
    rw [width_cons, hm, List.cons_append, dropBytes, ← ih]
    congr 1
    omega

/-- A slice of a text does not change with what stands in front of the text. -/
theorem slice_append_right (s t : Text) (start stop : Nat) :
    slice (s ++ t) (start + s.width) (stop + s.width) = slice t start stop := by
  rw [slice, slice, Nat.add_comm start, dropBytes_append_right]
  congr 1
  omega

/-- A slice that begins where a part does ends with the text, or in front of its end, whatever
follows it. -/
theorem StandsAt.slice_append_left {part t : Text} {start stop : Nat} (h : StandsAt part start t)
    (u : Text) (le : stop ≤ t.width) : slice (t ++ u) start stop = slice t start stop := by
  obtain ⟨before, after, rfl, rfl⟩ := h
  simp only [width_append] at le
  rw [slice, slice, List.append_assoc before part after, List.append_assoc before,
    dropBytes_width_append, dropBytes_width_append]
  refine takeBytes_append_left u ?_
  rw [width_append]
  omega

theorem StandsAt.width_le {part t : Text} {offset : Nat} (h : StandsAt part offset t) :
    offset + part.width ≤ t.width := by
  obtain ⟨before, after, rfl, rfl⟩ := h
  simp only [width_append]
  omega

/-- Between the last of some texts and the first of others stands the separator as well. -/
theorem intercalate_append {sep : Text} {ts us : List Text} (left : ts ≠ []) (right : us ≠ []) :
    sep.intercalate (ts ++ us) = sep.intercalate ts ++ sep ++ sep.intercalate us := by
  induction ts with
  | nil => exact absurd rfl left
  | cons t ts ih =>
    by_cases last : ts = []
    · subst last
      rw [List.singleton_append, List.intercalate_cons_of_ne_nil right, List.intercalate_singleton]
    · rw [List.cons_append, List.intercalate_cons_of_ne_nil (by simp [last]), ih last,
        List.intercalate_cons_of_ne_nil last]
      simp only [List.append_assoc]

end Text

namespace Roll

/-! ## Tokens -/

/-- A token `d` bytes further on. -/
def Token.moved (d : Nat) (t : Token) : Token := { t with offset := t.offset + d }

/-- A term that begins `d` bytes further on. -/
def Term.moved (d : Nat) (term : Term) : Term := { term with offset := term.offset + d }

@[simp] theorem Token.moved_zero : Token.moved 0 = id := rfl

@[simp] theorem Term.moved_zero : Term.moved 0 = id := rfl

@[simp] theorem Token.map_lexeme_moved (d : Nat) (ts : List Token) :
    (ts.map (Token.moved d)).map (·.lexeme) = ts.map (·.lexeme) := by
  rw [List.map_map]
  rfl

@[simp] theorem Token.moved_stop (d : Nat) (t : Token) : (t.moved d).stop = t.stop + d := by
  show t.offset + d + t.text.width = t.offset + t.text.width + d
  omega

@[simp] theorem Term.map_content_moved (d : Nat) (terms : List Term) :
    (terms.map (Term.moved d)).map Term.content = terms.map Term.content := by
  rw [List.map_map]
  rfl

namespace Token

variable {c : Char} {offset : Nat} {r t rest behind : Text} {l : Lexeme}

theorem EndsAtom.append {s : Text} (h : EndsAtom s) (ends : EndsAtom behind) :
    EndsAtom (s ++ behind) := by
  cases s with
  | nil => exact ends
  | cons c r =>
    by_cases hc : isAtomChar c = true
    · simp [EndsAtom, hc] at h
    · exact endsAtom_cons (by simpa using hc) _

/-- What follows a text changes no lexeme of it, except that an atom must not go on there. -/
theorem next_append (ends : EndsAtom behind) (h : next offset c r = .ok (l, rest)) :
    next offset c (r ++ behind) = .ok (l, rest ++ behind) := by
  by_cases bracket : c = '['
  · subst bracket
    have closed := List.takeWhile_append_dropWhile (p := (· != ']')) (l := r)
    have type := not_mem_takeWhile ']' r
    rcases e : r.dropWhile (· != ']') with _ | ⟨d, rest'⟩
    · rw [next, if_pos rfl, e] at h
      cases h
    · obtain rfl := dropWhile_ne_cons e
      rw [e] at closed
      rw [← closed, next_damageType type] at h
      cases h
      rw [← closed, List.append_assoc, List.cons_append, next_damageType type, closed]
  by_cases atom : isAtomChar c = true
  · have isAtom := isAtom_takeWhile atom r
    have here := next_atom isAtom (endsAtom_dropWhile r) offset
    rw [List.takeWhile_append_dropWhile, h] at here
    cases here
    have := next_atom isAtom ((endsAtom_dropWhile r).append ends) offset
    rwa [← List.append_assoc, List.takeWhile_append_dropWhile] at this
  · obtain ⟨m, -, all⟩ | none := next_other bracket (by simpa using atom)
    · rw [all] at h ⊢
      cases h
      rfl
    · obtain ⟨fault, e⟩ := none offset r
      rw [e] at h
      cases h

/-- The tokens of a text come before those of what follows it. -/
theorem scans_of_scanFrom {seen all : List Token} (ends : EndsAtom behind)
    (h : scanFrom offset seen t = .ok all) :
    scanFrom offset seen (t ++ behind) = scanFrom (offset + t.width) all.reverse behind := by
  fun_induction scanFrom offset seen t with
  | case1 offset seen =>
    cases h
    simp
  | case2 offset seen c r layout ih =>
    rw [List.cons_append, scanFrom_layout layout, ih h, Text.width_cons,
      Text.utf8Size_of_isLayout layout, Nat.add_assoc]
  | case3 => cases h
  | case4 offset seen c r layout l rest e _ ih =>
    rw [List.cons_append, scanFrom_next (by simpa using layout) (next_append ends e), ih h,
      next_text e, Text.width_append, Nat.add_assoc]

/-- The tokens of a text that is moved are moved with it, whatever comes before. -/
theorem scanFrom_moved (t : Text) (d offset : Nat) (seen before : List Token) {all : List Token} :
    scanFrom (offset + d) (seen.map (moved d) ++ before) t = .ok all ↔
      ∃ us, scanFrom offset seen t = .ok us ∧ all = before.reverse ++ us.map (moved d) := by
  fun_induction scanFrom offset seen t with
  | case1 offset seen => simp [scanFrom, @eq_comm _ all]
  | case2 offset seen c r layout ih => rw [scanFrom_layout layout, Nat.add_right_comm, ih]
  | case3 offset seen c r layout fault e =>
    obtain ⟨fault', e'⟩ := next_error_anywhere e (offset + d)
    rw [scanFrom_fault (by simpa using layout) e']
    simp
  | case4 offset seen c r layout l rest e _ ih =>
    rw [scanFrom_next (by simpa using layout) (next_ok_anywhere e (offset + d)),
      Nat.add_right_comm, ← ih]
    rfl

/-- A text with a comma and another text behind it has the tokens of both. -/
theorem scan_joined {a : Text} {ts : List Token} (h : scan a = .ok ts) (b : Text)
    {all : List Token} : scan (a ++ ',' :: b) = .ok all ↔
      ∃ us, scan b = .ok us ∧ all = ts ++ ⟨.comma, a.width⟩ :: us.map (moved (a.width + 1)) := by
  have front := scans_of_scanFrom (endsAtom_cons rfl b : EndsAtom (',' :: b)) h
  have comma : scanFrom a.width ts.reverse (',' :: b) =
      scanFrom (a.width + 1) (⟨.comma, a.width⟩ :: ts.reverse) b := scans_comma a.width b ts.reverse
  have behind := @scanFrom_moved b (a.width + 1) 0 [] (⟨.comma, a.width⟩ :: ts.reverse) all
  rw [Nat.zero_add] at front behind
  rw [scan, scan, front, comma]
  simpa using behind

end Token

/-! ## Terms -/

namespace Reading

variable {source source' : Text} {d : Nat} {ts done : List Token} {term : Term}
  {terms newest : List Term}

/-- Between tokens, `source'` has `d` bytes further on what `source` has. -/
def Covers (source' : Text) (d : Nat) (source : Text) (ts : List Token) : Prop :=
  ∀ first ∈ ts, ∀ last ∈ ts, source'.slice (first.offset + d) (max last.stop first.offset + d) =
    source.slice first.offset (max last.stop first.offset)

/-- A text has what its beginning has, if the tokens are those of the beginning. -/
theorem covers_front {a : Text} (stands : ∀ t ∈ ts, t.Stands a) (b : Text) :
    Covers (a ++ b) 0 a ts := by
  intro first hf last hl
  have start := stands first hf
  have offset : first.offset ≤ a.width := Nat.le_trans (Nat.le_add_right _ _) start.width_le
  have stop : last.stop ≤ a.width := (stands last hl).width_le
  exact start.slice_append_left b (Nat.max_le.2 ⟨stop, offset⟩)

/-- A text has what its end has, behind what stands in front of that. -/
theorem covers_behind (a b : Text) (ts : List Token) : Covers (a ++ b) a.width b ts :=
  fun _ _ _ _ => Text.slice_append_right a b _ _

theorem Covers.mono {us : List Token} (h : Covers source' d source us) (sub : ts ⊆ us) :
    Covers source' d source ts :=
  fun first hf last hl => h first (sub hf) last (sub hl)

theorem TermTokens.moved (h : TermTokens source ts term) (covers : Covers source' d source ts) :
    TermTokens source' (ts.map (Token.moved d)) (term.moved d) := by
  have spelled_moved {us : List Token} {first last : Token} (sub : us ⊆ ts)
      (hf : us.head? = some first) (hl : us.getLast? = some last) (type : Option Text) (u : Tree) :
      (spelled source first last type u).moved d =
        spelled source' (first.moved d) (last.moved d) type u := by
    have same := covers first (sub (List.mem_of_mem_head? hf)) last (sub (List.mem_of_getLast? hl))
    rw [spelled, spelled, Token.moved_stop, Term.moved, ← same]
    show (⟨u, type, _, _⟩ : Term) =
      ⟨u, type, source'.slice _ (max (last.stop + d) (first.offset + d)), _⟩
    rw [Nat.add_max_add_right]
    rfl
  cases h with
  | bare sum hf hl =>
    rw [spelled_moved (List.Subset.refl _) hf hl]
    exact .bare (by rwa [Token.map_lexeme_moved]) (by simp [hf]) (by simp [hl])
  | typed sum hf hl ht =>
    rw [spelled_moved (List.subset_append_left _ _) hf hl, List.map_append]
    exact .typed (by rwa [Token.map_lexeme_moved]) (by simp [hf]) (by simp [hl]) ht

theorem Closed.moved (h : Closed source done terms) (covers : Covers source' d source done) :
    Closed source' (done.map (Token.moved d)) (terms.map (Term.moved d)) := by
  induction h with
  | nil => exact .nil
  | cons closed tokens ht ih =>
    rw [List.map_append, List.map_append]
    exact .cons (ih (covers.mono (by simp))) (tokens.moved (covers.mono (by simp))) ht

theorem Whole.moved (h : Whole source ts newest) (covers : Covers source' d source ts) :
    Whole source' (ts.map (Token.moved d)) (newest.map (Term.moved d)) := by
  obtain ⟨closed, tokens⟩ := h
  rw [List.map_append]
  exact .mk (closed.moved (covers.mono (by simp))) (tokens.moved (covers.mono (by simp)))

end Reading

/-! ## Whole rolls -/

/-- Two rolls are one with a comma between them. -/
theorem Grammar.Damage.append {v w : List Lexeme} {ps qs : List (Tree × Option Text)}
    (first : Damage v ps) (second : Damage w qs) : Damage (v ++ .comma :: w) (ps ++ qs) := by
  induction second with
  | one entry => exact first.more entry
  | more _ entry ih =>
    have := ih.more entry
    simpa using this

variable {a b : Text} {first second : List Term}

/-- What follows the comma behind a roll is a roll if the whole is. -/
theorem parse_behind_comma (h : parse a = .ok first) {terms : List Term}
    (read : parse (a ++ ',' :: b) = .ok terms) : ∃ second, parse b = .ok second := by
  obtain ⟨ts, newest, scan, -, whole⟩ := parse_whole h
  obtain ⟨all, newest', scanAll, -, wholeAll⟩ := parse_whole read
  obtain ⟨us, scanB, rfl⟩ := (Token.scan_joined scan b).1 scanAll
  obtain ⟨older, newer, -, -, behind⟩ := wholeAll.split whole.damage rfl rfl
  have damage := behind.damage
  rw [Token.map_lexeme_moved] at damage
  obtain ⟨second, readB, -⟩ := parse_of_damage scanB damage
  exact ⟨second, readB⟩

/-- A roll with a comma and a second roll behind it has the terms of both, those of the second
moved to where it stands. -/
theorem parse_joined_terms (h : parse a = .ok first) (h' : parse b = .ok second) :
    parse (a ++ ',' :: b) = .ok (first ++ second.map (Term.moved (a.width + 1))) := by
  obtain ⟨ts, newest, scan, rfl, whole⟩ := parse_whole h
  obtain ⟨us, newest', scanB, rfl, wholeB⟩ := parse_whole h'
  have scanAll := (Token.scan_joined scan b).2 ⟨us, scanB, rfl⟩
  have damage := whole.damage.append wholeB.damage
  rw [← Token.map_lexeme_moved (a.width + 1) us] at damage
  obtain ⟨terms, read, -⟩ := parse_of_damage scanAll (by simpa using damage)
  obtain ⟨all, newestAll, scanAll', rfl, wholeAll⟩ := parse_whole read
  rw [scanAll] at scanAll'
  cases scanAll'
  -- The tokens of each roll leave no choice of the terms that they have in the whole.
  obtain ⟨older, newer, rfl, front, behind⟩ := wholeAll.split whole.damage rfl rfl
  have stands := (Token.stands_of_scan a).2 ts scan
  have frontTerms := whole.moved (Reading.covers_front stands (',' :: b))
  have behindTerms := wholeB.moved (Reading.covers_behind (a ++ [',']) b us)
  have width : Text.width (a ++ [',']) = a.width + 1 := Text.width_append a [',']
  rw [Token.moved_zero, Term.moved_zero, List.map_id, List.map_id] at frontTerms
  rw [width, List.append_assoc, List.singleton_append] at behindTerms
  rw [read, front.unique frontTerms, behind.unique behindTerms, List.reverse_append,
    List.map_reverse]

/-- A roll that is worked out has a term, so its text comes of at least one text. -/
theorem evaluate_texts {rank : Rank} {roll text : Text}
    (h : (evaluate rank roll).answer = .ok text) :
    ∃ terms texts, parse roll = .ok terms ∧
      List.Forall₂ (Written rank) (terms.map Term.content) texts ∧ texts ≠ [] ∧
      " and ".toList.intercalate texts = text := by
  obtain ⟨terms, read, h⟩ := Logged.answer_bind_ok.1 h
  obtain ⟨texts, written, rfl⟩ := Logged.answer_map_ok.1 h
  rw [renderTerms_ok_iff] at written
  refine ⟨terms, texts, read, written, ?_, rfl⟩
  rintro rfl
  obtain ⟨ts, newest, -, rfl, whole⟩ := parse_whole read
  cases whole
  simp at written

/-- Two rolls that are worked out are worked out together, with `and` between them. -/
theorem evaluate_joined_text {rank : Rank} {x y : Text} (hx : (evaluate rank a).answer = .ok x)
    (hy : (evaluate rank b).answer = .ok y) :
    (evaluate rank (a ++ ',' :: b)).answer = .ok (x ++ " and ".toList ++ y) := by
  obtain ⟨first, texts, read, written, some_text, rfl⟩ := evaluate_texts hx
  obtain ⟨second, texts', read', written', some_text', rfl⟩ := evaluate_texts hy
  rw [← Text.intercalate_append some_text some_text']
  refine Logged.answer_bind_ok.2 ⟨_, parse_joined_terms read read', Logged.answer_map_ok.2
    ⟨texts ++ texts', renderTerms_ok_iff.2 ?_, rfl⟩⟩
  rw [List.map_append, Term.map_content_moved]
  exact List.rel_append written written'

/-- Rolls are joined by commas. Behind a roll that is read, a comma and a second roll are read
exactly if the second roll is, to the terms of both, those of the second roll moved to where it
stands; and two rolls that are worked out are worked out together, with `and` between them. -/
theorem parse_joined (a b : Text) :
    (∀ first, parse a = .ok first →
      ((∃ terms, parse (a ++ ',' :: b) = .ok terms) ↔ ∃ second, parse b = .ok second) ∧
      ∀ second, parse b = .ok second →
        parse (a ++ ',' :: b) = .ok (first ++ second.map (Term.moved (a.width + 1)))) ∧
    ∀ (rank : Rank) (x y : Text), (evaluate rank a).answer = .ok x →
      (evaluate rank b).answer = .ok y →
      (evaluate rank (a ++ ',' :: b)).answer = .ok (x ++ " and ".toList ++ y) := by
  refine ⟨fun first read => ⟨⟨?_, ?_⟩, fun second => parse_joined_terms read⟩,
    fun rank x y => evaluate_joined_text⟩
  · rintro ⟨terms, joined⟩
    exact parse_behind_comma read joined
  · rintro ⟨second, read'⟩
    exact ⟨_, parse_joined_terms read read'⟩

/-- The comma between two terms is none of those between arguments, and a call that is not closed
is no roll behind a comma either. -/
theorem fire_and_larger :
    (evaluate {} "2d6[fire],max(1,2)".toList).answer = .ok "2d6 fire and 2".toList ∧
      (∃ terms, parse "2d6[fire]".toList = .ok terms) ∧
      ¬ ∃ terms, parse "2d6[fire],max(1".toList = .ok terms := by
  have fire : (evaluate {} "2d6[fire]".toList).answer = .ok "2d6 fire".toList := by decide +kernel
  have larger : (evaluate {} "max(1,2)".toList).answer = .ok "2".toList := by decide +kernel
  have unclosed : parse "max(1".toList = .error ⟨.unclosedGroup, "(1".toList, 3⟩ :=
    fault?_eq_some_iff.1 (by decide +kernel)
  obtain ⟨terms, -, read, -⟩ := evaluate_texts fire
  refine ⟨(parse_joined _ _).2 {} _ _ fire larger, ⟨terms, read⟩, fun joined => ?_⟩
  obtain ⟨second, read'⟩ := ((parse_joined _ "max(1".toList).1 terms read).1.1 joined
  rw [unclosed] at read'
  cases read'

end Roll

end RulesText
