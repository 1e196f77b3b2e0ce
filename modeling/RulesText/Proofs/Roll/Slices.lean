/-
The terms of a roll as parts of its text. What is not part of a term is blanks, the commas between
terms and damage types; and the text of a term is a roll of its own, which is read as the same term
(`parse_slices`).
-/
import RulesText.Proofs.Roll.RoundTrip
import RulesText.Proofs.Roll.Spacing

namespace RulesText.Roll

open Text (Layout StandsAt)
open Grammar

/-! ## Where terms lie -/

/-- The text, which begins at byte `offset`, is that of a term: its source with blanks around it,
and its damage type, if it has one, with blanks behind it. -/
inductive Holds (offset : Nat) (term : Term) : Text → Prop
  | bare {front behind : Text} : Layout front → Layout behind →
      term.offset = offset + front.width → term.damageType = none →
      Holds offset term (front ++ term.source ++ behind)
  | typed {front mid type behind : Text} : Layout front → Layout mid → Layout behind →
      term.offset = offset + front.width → term.damageType = some type → ']' ∉ type →
      Holds offset term (front ++ term.source ++ mid ++ '[' :: type ++ ']' :: behind)

/-- The text is that of the terms, one behind the other with a comma between them. -/
inductive Laid : Text → List Term → Prop
  | one {t : Text} {term : Term} : Holds 0 term t → Laid t [term]
  | more {s t : Text} {terms : List Term} {term : Term} : Laid s terms →
      Holds (s.width + 1) term t → Laid (s ++ ',' :: t) (terms ++ [term])

/-- The source of a term begins and ends with other characters than blanks, and by itself it is read
as that term alone, with no damage type. -/
structure Term.Alone (term : Term) : Prop where
  ne_nil : term.source ≠ []
  starts : ∀ c ∈ term.source.head?, Text.isLayout c = false
  ends : ∀ c ∈ term.source.getLast?, Text.isLayout c = false
  parsed : parse term.source = .ok [{ term with damageType := none, offset := 0 }]

variable {offset : Nat} {s t before after source : Text} {term : Term} {terms : List Term}

theorem Holds.split (h : Holds offset term t) :
    ∃ front behind, t = front ++ term.source ++ behind ∧ term.offset = offset + front.width := by
  cases h with
  | @bare front behind _ _ place _ => exact ⟨front, behind, rfl, place⟩
  | @typed front mid type behind _ _ _ place _ _ =>
    exact ⟨front, mid ++ '[' :: type ++ ']' :: behind, by simp, place⟩

theorem Holds.bounds (h : Holds offset term t) :
    offset ≤ term.offset ∧ term.offset + term.source.width ≤ offset + t.width := by
  obtain ⟨front, behind, rfl, place⟩ := h.split
  simp only [Text.width_append]
  omega

theorem Holds.stands (h : Holds before.width term t) :
    term.source.StandsAt term.offset (before ++ t) := by
  obtain ⟨front, behind, rfl, place⟩ := h.split
  exact ⟨before ++ front, behind, by simp, by rw [place, Text.width_append]⟩

/-- Every term stands in the text at its offset. -/
theorem Laid.stands (h : Laid t terms) : ∀ term ∈ terms, term.source.StandsAt term.offset t := by
  induction h with
  | @one t term holds =>
    intro term' mem
    obtain rfl := List.mem_singleton.1 mem
    obtain ⟨front, behind, rfl, place⟩ := holds.split
    exact ⟨front, behind, rfl, by rw [place, Nat.zero_add]⟩
  | @more s t terms term laid holds ih =>
    intro term' mem
    rcases List.mem_append.1 mem with mem | mem
    · obtain ⟨front, behind, rfl, width⟩ := ih term' mem
      exact ⟨front, behind ++ ',' :: t, by simp, width⟩
    · obtain rfl := List.mem_singleton.1 mem
      have width : Text.width (s ++ [',']) = s.width + 1 := Text.width_append s [',']
      rw [← width] at holds
      simpa using holds.stands

/-- At least a comma stands between one term and the next. -/
theorem Laid.pairwise (h : Laid t terms) :
    terms.Pairwise fun s t => s.offset + s.source.width < t.offset := by
  induction h with
  | one _ => exact List.pairwise_singleton _ _
  | @more s t terms term laid holds ih =>
    refine List.pairwise_append.2 ⟨ih, List.pairwise_singleton _ _, fun other mem term' mem' => ?_⟩
    obtain rfl := List.mem_singleton.1 mem'
    have inside := (laid.stands other mem).width_le
    have behind := holds.bounds.1
    omega

theorem Laid.ne_nil (h : Laid t terms) : terms ≠ [] := by
  cases h with
  | one _ => exact List.cons_ne_nil _ _
  | more _ _ => exact List.append_ne_nil_of_right_ne_nil _ (List.cons_ne_nil _ _)

/-! ## What is read -/

namespace Reading

variable {ts us done : List Token} {first last : Token} {u : Tree}

/-- The tokens of a text by itself, if the first begins at its beginning and the last ends at its
end. -/
theorem spans_alone {d : Nat} (start : first.offset = d) (stop : last.stop = d + t.width)
    (hfirst : (ts.map (Token.moved d)).head? = some first)
    (hlast : (ts.map (Token.moved d)).getLast? = some last) : Spans 0 t.width ts := by
  rw [List.head?_map] at hfirst
  rw [List.getLast?_map] at hlast
  obtain ⟨first', begins, rfl⟩ := Option.map_eq_some_iff.1 hfirst
  obtain ⟨last', ends, rfl⟩ := Option.map_eq_some_iff.1 hlast
  have zero : first'.offset = 0 := Nat.add_eq_right.1 start
  rw [Token.moved_stop, Nat.add_comm d, Nat.add_right_cancel_iff] at stop
  exact ⟨by rw [begins, ← zero]; rfl, by rw [ends, ← stop]; rfl⟩

/-- Between its first and its last token the text of a sum is that of the term over it. -/
theorem spelled_alone (split : source = before ++ t ++ after)
    (spaced : Token.Spaced before.width t ts) (hfirst : ts.head? = some first)
    (hlast : ts.getLast? = some last) (sum : Sum (ts.map (·.lexeme)) u) (type : Option Text) :
    (∃ front behind, t = front ++ (spelled source first last type u).source ++ behind ∧
      Layout front ∧ Layout behind ∧ first.offset = before.width + front.width) ∧
    (spelled source first last type u).Alone := by
  obtain ⟨ts, rfl⟩ := List.head?_eq_some_iff.1 hfirst
  obtain ⟨front, v, rfl, layout, place, spaced, plain⟩ := spaced.front
  obtain ⟨mid, behind, rfl, layout', spaced, stops, ne, plain'⟩ := spaced.trim hlast
  have part : (spelled source first last type u).source = mid := by
    have slice := Text.slice_append (before ++ front) mid (behind ++ after)
    have whole : source = before ++ front ++ mid ++ (behind ++ after) := by rw [split]; simp
    rw [← whole, Text.width_append, ← place, ← stops] at slice
    rw [spelled, Nat.max_eq_left (by omega), slice]
  refine ⟨⟨front, behind, by rw [part, List.append_assoc], layout, layout', place⟩, ?_⟩
  obtain ⟨us, scan, e⟩ := spaced.alone
  have spans : Spans 0 mid.width us :=
    spans_alone rfl stops (by rw [← e]; exact hfirst) (by rw [← e]; exact hlast)
  rw [e, Token.map_lexeme_moved] at sum
  have parsed := parse_single scan spans sum
  constructor
  case ne_nil => rwa [part]
  case starts =>
    rw [part]
    rw [List.head?_append_of_ne_nil _ ne] at plain
    exact plain
  case ends => rwa [part]
  case parsed =>
    rw [part, parsed, ← part]
    rfl

theorem TermTokens.holds (h : TermTokens source ts term) (split : source = before ++ t ++ after)
    (spaced : Token.Spaced before.width t ts) : Holds before.width term t ∧ term.Alone := by
  cases h with
  | bare sum hfirst hlast =>
    obtain ⟨⟨front, behind, text, layout, layout', place⟩, alone⟩ :=
      spelled_alone split spaced hfirst hlast sum none
    refine ⟨?_, alone⟩
    rw [text]
    exact .bare layout layout' place rfl
  | @typed ts first last x u type sum hfirst hlast hx =>
    obtain ⟨v, rest, rfl, spaced, -, ends, gap⟩ := spaced.split
    have split' : source = before ++ v ++ (x.text ++ rest ++ after) := by rw [split]; simp
    obtain ⟨⟨front, mid, text, layout, layout', place⟩, alone⟩ :=
      spelled_alone split' spaced hfirst hlast sum (some type)
    refine ⟨?_, alone⟩
    have shown : x.text = '[' :: type ++ [']'] := congrArg Lexeme.text hx
    rw [hx] at ends
    cases gap with
    | nil layout'' =>
      have held : Holds before.width (spelled source first last (some type) u) _ :=
        .typed layout layout' layout'' place rfl ends
      rw [text, shown]
      simpa using held

/-- Behind terms that are laid with a comma behind each, the text of one more is laid. -/
theorem laid_behind (front : t = [] ∧ terms = [] ∨ ∃ s, t = s ++ [','] ∧ Laid s terms)
    (holds : Holds t.width term s) : Laid (t ++ s) (terms ++ [term]) := by
  rcases front with ⟨rfl, rfl⟩ | ⟨s', rfl, laid⟩
  · exact .one holds
  · have width : Text.width (s' ++ [',']) = s'.width + 1 := Text.width_append s' [',']
    rw [width] at holds
    simpa using laid.more holds

/-- Closed terms are laid up to the last comma of theirs. -/
theorem Closed.laid (h : Closed source done terms) (split : source = t ++ after)
    (spaced : Token.Spaced 0 t (done ++ us)) :
    ∃ u v, t = u ++ v ∧ Token.Spaced u.width v us ∧
      (u = [] ∧ terms.reverse = [] ∨ ∃ s, u = s ++ [','] ∧ Laid s terms.reverse) ∧
      ∀ term ∈ terms, term.Alone := by
  induction h generalizing t us after with
  | nil => exact ⟨[], t, rfl, spaced, .inl ⟨rfl, rfl⟩, nofun⟩
  | @cons done ts x terms term _ tokens hx ih =>
    rw [List.append_assoc, List.singleton_append] at spaced
    obtain ⟨w, rest, rfl, spaced, place, -, behind⟩ := spaced.split
    -- In front of the comma lies the text of the terms before, and then that of the last one.
    have whole : source = w ++ (x.text ++ rest ++ after) := by rw [split]; simp
    obtain ⟨u, v, rfl, spaced, front, all⟩ := ih whole spaced
    obtain ⟨holds, alone⟩ := tokens.holds whole spaced
    have comma : x.text = [','] := congrArg Lexeme.text hx
    have width : Text.width (u ++ v ++ [',']) = x.stop := by
      rw [Token.stop, place, comma, Text.width_append, Nat.zero_add]
    refine ⟨u ++ v ++ [','], rest, by rw [comma], by rwa [width], .inr ⟨u ++ v, rfl, ?_⟩, ?_⟩
    · rw [List.reverse_cons]
      exact laid_behind front holds
    · exact List.forall_mem_cons.2 ⟨alone, all⟩

theorem Whole.laid {newest : List Term} (h : Whole source ts newest)
    (spaced : Token.Spaced 0 source ts) :
    Laid source newest.reverse ∧ ∀ term ∈ newest, term.Alone := by
  cases h with
  | mk closed tokens =>
    obtain ⟨u, v, split, spaced, front, all⟩ :=
      closed.laid (List.append_nil source).symm spaced
    have whole : source = u ++ v ++ [] := by rw [split, List.append_nil]
    obtain ⟨holds, alone⟩ := tokens.holds whole spaced
    refine ⟨?_, List.forall_mem_cons.2 ⟨alone, all⟩⟩
    rw [split, List.reverse_cons]
    exact laid_behind front holds

end Reading

/-- The terms of a roll are the parts of its text that are left without the blanks, the commas
between terms and the damage types. Each stands at its offset, is neither empty nor has blanks at
its ends, ends in front of the next, and is read by itself as the same term without a damage
type. -/
theorem parse_slices {roll : Text} {terms : List Term} (h : parse roll = .ok terms) :
    terms ≠ [] ∧ Laid roll terms ∧
    (∀ term ∈ terms, term.source.StandsAt term.offset roll ∧ term.Alone) ∧
    terms.Pairwise fun s t => s.offset + s.source.width < t.offset := by
  obtain ⟨tokens, newest, scan, rfl, whole⟩ := parse_whole h
  obtain ⟨laid, alone⟩ := whole.laid (Token.scan_ok_iff.1 scan)
  exact ⟨laid.ne_nil, laid,
    fun term mem => ⟨laid.stands term mem, alone term (List.mem_reverse.1 mem)⟩, laid.pairwise⟩

/-- The blanks and commas within a call belong to the term, those around it do not. -/
theorem slices_of_two :
    ∃ terms, parse " 2d6 [fire] ,\tmax( 1 , @pb )d4".toList = .ok terms ∧
      terms.map (fun term => (term.source, term.offset)) =
        [("2d6".toList, 1), ("max( 1 , @pb )d4".toList, 14)] ∧
      Laid " 2d6 [fire] ,\tmax( 1 , @pb )d4".toList terms ∧ ∀ term ∈ terms, term.Alone := by
  have shown : (match parse " 2d6 [fire] ,\tmax( 1 , @pb )d4".toList with
      | .ok terms => terms.map fun term => (term.source, term.offset)
      | .error _ => []) = [("2d6".toList, 1), ("max( 1 , @pb )d4".toList, 14)] := by
    decide +kernel
  cases read : parse " 2d6 [fire] ,\tmax( 1 , @pb )d4".toList with
  | error fault =>
    rw [read] at shown
    cases shown
  | ok terms =>
    rw [read] at shown
    obtain ⟨-, laid, parts, -⟩ := parse_slices read
    exact ⟨terms, rfl, shown, laid, fun term mem => (parts term mem).2⟩

end RulesText.Roll
