/-
Texts put behind a passage. Reading looks ahead for the name of a tag, for its closing bracket and
for a replacement; behind a passage that leaves none of them open, a text that begins with none of
their characters is expanded on its own (`expanded_append`). Literals do not mark a seam, so they
are taken apart into characters first (`expanded_plain`).
-/
import RulesText.Proofs.Passage.Recursion

namespace RulesText

namespace Reader

variable {rank : Rank} {scope : Scope}

/-! ## Characters that are copied -/

theorem literal_eq (scope : Scope) (seen t : Text) :
    literal scope seen t = (seen.reverse ++ (literal scope [] t).1, (literal scope [] t).2) := by
  induction t generalizing seen with
  | nil => simp [literal]
  | cons c r ih =>
    rw [literal, literal]
    split
    · simp
    · rw [ih (c :: seen), ih [c]]
      simp

theorem literal_plain {c : Char} {t : Text} (hopen : opening? scope (c :: t) = none) :
    literal scope [] (c :: t) = (c :: (literal scope [] t).1, (literal scope [] t).2) := by
  rw [literal, hopen, if_neg (by simp), literal_eq]
  rfl

/-- Where neither a tag nor a replacement opens, a literal is read. -/
theorem next_plain {c : Char} {t : Text} {offset : Nat} {afterTag : Bool}
    (hbrace : (afterTag && c = '{') = false) (hopen : opening? scope (c :: t) = none) :
    (Reader.mk (c :: t) offset scope afterTag).next =
      .ok (some ((Reader.mk (c :: t) offset scope afterTag).behind
        (.literal (c :: (literal scope [] t).1)) (literal scope [] t).2 false)) := by
  unfold next
  simp only [hbrace, hopen, literal_plain hopen]
  rfl

/-- A character that opens neither a tag nor a replacement is copied. -/
theorem expanded_plain {c : Char} {t : Text} {offset : Nat} {afterTag : Bool}
    (hbrace : (afterTag && c = '{') = false) (hopen : opening? scope (c :: t) = none) :
    (Reader.mk (c :: t) offset scope afterTag).expanded rank =
      (c :: ·) <$> (Reader.mk t (offset + c.utf8Size) scope false).expanded rank := by
  rw [expanded_literal (next_plain hbrace hopen)]
  -- The literal is this character and the literal that stands behind it, if there is one.
  cases t with
  | nil => rfl
  | cons d t =>
    cases hd : opening? scope (d :: t) with
    | some o =>
      have hlit : literal scope [] (d :: t) = ([], d :: t) := by rw [literal, hd]; rfl
      rw [hlit]
      rfl
    | none =>
      rw [expanded_literal (next_plain (by simp) hd), literal_plain hd, Functor.map_map]
      simp only [Segment.source, Text.width_cons, Nat.add_assoc]
      rfl

theorem opening?_eq_none_of_ne {c : Char} (h : c ≠ '@') (t : Text) :
    opening? scope (c :: t) = none := by
  unfold opening?
  split
  · rename_i heq
    cases heq
    exact absurd rfl h
  · rfl

/-- Without `@` a text is copied. -/
theorem expanded_copied {s : Text} (hs : '@' ∉ s) (t : Text) (offset : Nat) :
    (Reader.mk (s ++ t) offset scope false).expanded rank =
      (s ++ ·) <$> (Reader.mk t (offset + s.width) scope false).expanded rank := by
  induction s generalizing offset with
  | nil => simp
  | cons c s ih =>
    obtain ⟨hc, hs⟩ := List.ne_and_not_mem_of_not_mem_cons hs
    rw [List.cons_append, expanded_plain (by simp) (opening?_eq_none_of_ne hc.symm _), ih hs,
      Functor.map_map, Text.width_cons, Nat.add_assoc]
    rfl

/-! ## A text behind what is read -/

/-- A text that neither completes the name of a tag before it nor is a replacement for that tag. -/
structure Apart (u : Text) : Prop where
  name : ∀ c ∈ u.head?, isNameChar c = false
  bracket : ∀ c ∈ u.head?, c ≠ '['
  brace : ∀ c ∈ u.head?, c ≠ '{'

/-- A reader with a text put behind what it has still to read. -/
def append (r : Reader) (u : Text) : Reader := { r with rest := r.rest ++ u }

/-- A reader of the text `u` behind the passage. -/
def beyond (r : Reader) (u : Text) : Reader := ⟨u, r.offset + r.rest.width, r.scope, false⟩

theorem beyond_next {r r' : Reader} {segment : Segment} (h : r.next = .ok (some (segment, r')))
    (u : Text) : r'.beyond u = r.beyond u := by
  obtain ⟨hrest, hoffset, hscope⟩ := next_source h
  rw [beyond, beyond, hrest, hoffset, hscope, Text.width_append, Nat.add_assoc]

theorem opening?_eq_some_iff {t name inner : Text} :
    opening? scope t = some (name, inner) ↔
      t = '@' :: name ++ '[' :: inner ∧ name.all isNameChar = true ∧ admits scope name = true := by
  constructor
  · intro h
    exact ⟨eq_of_opening? h, opening?_name h⟩
  · rintro ⟨rfl, hname, hadm⟩
    have hchars : ∀ c ∈ name, isNameChar c = true := List.all_eq_true.1 hname
    rw [List.cons_append, opening?, List.dropWhile_append_of_pos hchars,
      List.takeWhile_append_of_pos hchars, List.dropWhile_cons_of_neg (by decide),
      List.takeWhile_cons_of_neg (by decide)]
    simp [hadm]

theorem opening?_append_some {t name inner : Text} (h : opening? scope t = some (name, inner))
    (u : Text) : opening? scope (t ++ u) = some (name, inner ++ u) := by
  obtain ⟨rfl, hname⟩ := opening?_eq_some_iff.1 h
  exact opening?_eq_some_iff.2 ⟨by simp, hname⟩

/-- A text apart opens no tag at a place before it. -/
theorem opening?_append_none {u : Text} (hu : Apart u) {c : Char} {t : Text}
    (h : opening? scope (c :: t) = none) : opening? scope (c :: t ++ u) = none := by
  refine Option.eq_none_iff_forall_ne_some.2 fun ⟨name, inner⟩ hsome => ?_
  obtain ⟨heq, hname, hadm⟩ := opening?_eq_some_iff.1 hsome
  rcases List.append_eq_append_iff.1 heq with ⟨more, hmore, rfl⟩ | ⟨more, hmore, hrest⟩
  · cases more with
    | nil => exact hu.bracket '[' (by simp) rfl
    | cons d more =>
      -- The name goes on behind the seam.
      obtain ⟨rfl, rfl⟩ := List.cons.inj hmore
      have hd := List.all_eq_true.1 hname d (by simp)
      rw [hu.name d (by simp)] at hd
      cases hd
  · cases more with
    | nil => exact hu.bracket '[' (by simp [← show '[' :: inner = u from hrest]) rfl
    | cons d more =>
      obtain ⟨rfl, rfl⟩ := List.cons.inj hrest
      rw [opening?_eq_some_iff.2 ⟨hmore, hname, hadm⟩] at h
      cases h

theorem closing?_append {depth : Nat} {seen body : String} {t rest : Text}
    (h : closing? depth seen t = some (body, rest)) (u : Text) :
    closing? depth seen (t ++ u) = some (body, rest ++ u) := by
  fun_induction closing? depth seen t with
  | case1 => cases h
  | case2 depth seen r ih => simpa [closing?] using ih h
  | case3 seen r => cases h; simp [closing?]
  | case4 seen r _ depth ih => simpa [closing?] using ih h
  | case5 depth seen c r ho hc ih => simpa [closing?, ho, hc] using ih h

/-! ## Reading in front of a text -/

theorem rest_of_next_none {r : Reader} (h : r.next = .ok none) : r.rest = [] := by
  unfold next at h
  split at h
  · assumption
  · repeat' split at h
    all_goals cases h

/-- Where a literal is read, neither a tag nor a replacement opens. -/
theorem plain_of_next {r r' : Reader} {text : Text} (h : r.next = .ok (some (.literal text, r'))) :
    ∃ c t, r.rest = c :: t ∧ (r.afterTag && c = '{') = false ∧
      opening? r.scope (c :: t) = none := by
  unfold next at h
  split at h
  · cases h
  · rename_i c t hrest
    split at h
    · split at h <;> cases h
    · rename_i hbrace
      split at h
      · split at h <;> cases h
      · rename_i hopen
        exact ⟨c, t, hrest, by simpa using hbrace, hopen⟩

/-- A tag or a replacement is read in front of a text as it is read without it. -/
theorem next_append {r r' : Reader} {segment : Segment} (h : r.next = .ok (some (segment, r')))
    (hsegment : ∀ text, segment ≠ .literal text) (u : Text) :
    (r.append u).next = .ok (some (segment, r'.append u)) := by
  obtain ⟨rest, offset, scope, afterTag⟩ := r
  unfold next at h
  split at h
  · cases h
  · rename_i c t hrest
    obtain rfl : rest = c :: t := hrest
    split at h
    · rename_i hbrace
      split at h
      · cases h
      · rename_i d rest hd
        cases h
        have hsplit := congrArg List.length (List.takeWhile_append_dropWhile (p := (· != '}')) (l := t))
        rw [hd, List.length_append, List.length_cons] at hsplit
        have htake : (t ++ u).takeWhile (· != '}') = t.takeWhile (· != '}') := by
          rw [List.takeWhile_append, if_neg (by omega)]
        have hdrop : (t ++ u).dropWhile (· != '}') = d :: (rest ++ u) := by
          rw [List.dropWhile_append, hd]
          rfl
        unfold next append
        simp only [List.cons_append, hbrace, if_true, htake, hdrop]
        rfl
    · rename_i hbrace
      split at h
      · rename_i name inner hopen
        split at h
        · cases h
        · rename_i body rest hclose
          cases h
          have hopen' := opening?_append_some hopen u
          have hclose' := closing?_append hclose u
          unfold next append
          rw [List.cons_append] at hopen' ⊢
          simp only [hbrace, hopen', hclose']
          rfl
      · cases h
        exact absurd rfl (hsegment _)

/-- In front of a text apart, a read that gives no replacement gives none with the text either. -/
theorem next_append_ne {u : Text} (hu : Apart u) {r : Reader}
    (herror : ∀ f, r.next ≠ .error f) (h : ∀ text r', r.next ≠ .ok (some (.replacement text, r'))) :
    ∀ text r', (r.append u).next ≠ .ok (some (.replacement text, r')) := by
  intro text s hs
  have hrest : r.rest ++ u = '{' :: text ++ ['}'] ++ s.rest := (next_source hs).1
  cases hr : r.rest with
  | nil =>
    rw [hr, List.nil_append] at hrest
    exact hu.brace '{' (by simp [hrest]) rfl
  | cons c t =>
    rw [hr] at hrest
    obtain rfl : c = '{' := (List.cons.inj hrest).1
    rcases next_brace (s := r) (next_replacement hs).1 hr with ⟨hf, -⟩ | ⟨text', r', hn⟩
    · exact herror _ hf
    · exact h text' r' hn

/-! ## Expanding in front of a text -/

theorem expanded_congr {r s : Reader} (h : r.next = s.next) :
    r.expanded rank = s.expanded rank := by
  rcases hn : s.next with f | _ | ⟨text | span | text, r'⟩
  · rw [expanded_error hn, expanded_error (h.trans hn)]
  · rw [expanded_none hn, expanded_none (h.trans hn)]
  · rw [expanded_literal hn, expanded_literal (h.trans hn)]
  · rw [expanded_tag hn, expanded_tag (h.trans hn)]
  · rw [expanded_replacement hn, expanded_replacement (h.trans hn)]

/-- A text apart is no replacement, whatever stands before it. -/
theorem next_apart {u : Text} (hu : Apart u) (offset : Nat) (scope : Scope) (afterTag : Bool) :
    (Reader.mk u offset scope afterTag).next = (Reader.mk u offset scope false).next := by
  cases u with
  | nil => rfl
  | cons c t =>
    have hbrace : c ≠ '{' := hu.brace c rfl
    simp [next, behind, hbrace]

theorem expandedBehind_of_ne {r : Reader} (h : ∀ text r', r.next ≠ .ok (some (.replacement text, r')))
    (rendering : Text) :
    r.expandedBehind rank rendering = (rendering ++ ·) <$> r.expanded rank := by
  unfold expandedBehind
  split
  · rename_i text r' hn
    exact absurd hn (h text r')
  · rfl

theorem expandedBehind_replacement {r r' : Reader} {text : Text}
    (h : r.next = .ok (some (.replacement text, r'))) (rendering : Text) :
    r.expandedBehind rank rendering = (text ++ ·) <$> r'.expanded rank := by
  unfold expandedBehind
  rw [h]

/-- No part is left open: a run that ends so either has a text or fails at a closed tag. -/
def Closes (rank : Rank) (r : Reader) : Prop :=
  ∀ part offset, (r.expanded rank).answer ≠ .error (.unclosed part offset)

theorem Closes.next_ne {r : Reader} (h : r.Closes rank) (f : Failure) : r.next ≠ .error f := by
  intro hn
  have herror : r.expanded rank = Logged.fail f := expanded_error hn
  rcases next_error hn with ⟨rfl, -⟩ | ⟨rfl, -⟩
  · exact h _ _ (by rw [herror]; rfl)
  · exact h _ _ (by rw [herror]; rfl)

theorem Closes.of_map {r r' : Reader} {f : Text → Text} (h : r.Closes rank)
    (heq : r.expanded rank = f <$> r'.expanded rank) : r'.Closes rank := by
  intro part offset hf
  exact h part offset (by rw [heq, Logged.answer_map_error]; exact hf)

theorem Closes.behind {r r' : Reader} {span : Span} {body rendering : Text} (h : r.Closes rank)
    (hn : r.next = .ok (some (.tag span, r')))
    (hbody : ((ofBody span).expanded rank).answer = .ok body)
    (hrendering : (Expansion.resolve rank span body).answer = .ok rendering) : r'.Closes rank := by
  intro part offset hf
  refine h part offset ?_
  rw [expanded_eq_error_iff] at hf ⊢
  exact .behind hn hbody hrendering hf

/-- Behind a passage that leaves no part open, a text apart is expanded on its own. -/
theorem expanded_append {u : Text} (hu : Apart u) {r : Reader} (h : r.Closes rank) :
    (r.append u).expanded rank = (do
      let text ← r.expanded rank
      (text ++ ·) <$> (r.beyond u).expanded rank) := by
  induction hlen : r.rest.length using Nat.strong_induction_on generalizing r with
  | _ n ih =>
    have left {s : Reader} (hs : s.rest.length < r.rest.length) (h : s.Closes rank) :=
      ih _ (hlen ▸ hs) h rfl
    rcases hn : r.next with f | _ | ⟨text | span | text, r'⟩
    · exact absurd hn (h.next_ne f)
    · have hrest := rest_of_next_none hn
      have happend : r.append u = ⟨u, r.offset, r.scope, r.afterTag⟩ := by rw [append, hrest]; rfl
      rw [expanded_none hn, happend, expanded_congr (next_apart hu ..), beyond, hrest]
      simp
    · -- A literal may go on behind the seam, so only its first character is taken here.
      obtain ⟨c, t, hrest, hbrace, hopen⟩ := plain_of_next hn
      obtain ⟨rest, offset, scope, afterTag⟩ := r
      obtain rfl : rest = c :: t := hrest
      have hfirst : expanded rank ⟨c :: t, offset, scope, afterTag⟩ =
          (c :: ·) <$> expanded rank ⟨t, offset + c.utf8Size, scope, false⟩ :=
        expanded_plain hbrace hopen
      have hboth : (append ⟨c :: t, offset, scope, afterTag⟩ u).expanded rank =
          (c :: ·) <$> (append ⟨t, offset + c.utf8Size, scope, false⟩ u).expanded rank :=
        expanded_plain hbrace (opening?_append_none hu hopen)
      rw [hfirst, hboth, left (by simp) (h.of_map hfirst)]
      simp [beyond, Nat.add_assoc]
    · have hlength := next_body_length hn
      rw [expanded_tag hn, expanded_tag (next_append hn (by simp) u), bind_assoc]
      refine Logged.bind_congr_ok fun body hbody => ?_
      rw [bind_assoc]
      refine Logged.bind_congr_ok fun rendering hrendering => ?_
      have hbehind := h.behind hn hbody hrendering
      by_cases hreplaced : ∃ text r'', r'.next = .ok (some (.replacement text, r''))
      · obtain ⟨text, r'', hn'⟩ := hreplaced
        have hlength' := next_length hn'
        rw [expandedBehind_replacement hn', expandedBehind_replacement (next_append hn' (by simp) u),
          left (by omega) (hbehind.of_map (expanded_replacement hn')), beyond_next hn', beyond_next hn]
        simp
      · have hplain : ∀ text r'', r'.next ≠ .ok (some (.replacement text, r'')) :=
          fun text r'' hn' => hreplaced ⟨text, r'', hn'⟩
        rw [expandedBehind_of_ne hplain,
          expandedBehind_of_ne (next_append_ne hu hbehind.next_ne hplain),
          left (by omega) hbehind, beyond_next hn]
        simp
    · have hr : r.expanded rank = (text ++ ·) <$> r'.expanded rank := expanded_replacement hn
      rw [hr, expanded_replacement (next_append hn (by simp) u), left (next_length hn) (h.of_map hr),
        beyond_next hn]
      simp

end Reader

end RulesText
