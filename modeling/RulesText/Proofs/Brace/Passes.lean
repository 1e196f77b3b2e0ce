/-
What the passes over a brace record make of its parts. A pass goes over two texts as over each of
them where no tag lies across the seam (`pass_append`), and each brace that it leaves was a brace
before, with the passes over the text in front of it and behind it done. So a tag that has no words
can be traced back to the brace that opens it, and the offset in a failure is the length of what the
passes have made of the text in front of that brace (`expand_error_iff`).
-/
import RulesText.Proofs.Brace.Rewriting

namespace RulesText.Brace

open BraceTag (Occurs Complete)

variable {s t u before after rest : Text} {tag : BraceTag}

/-! ## Texts without tags -/

theorem tagFree_nil : TagFree [] := by
  rintro tag before rest ⟨-, e⟩
  simp [BraceTag.source] at e

theorem TagFree.left (h : TagFree (s ++ t)) : TagFree s := by
  rintro tag before rest ⟨complete, rfl⟩
  exact h tag before (rest ++ t) ⟨complete, by simp⟩

theorem TagFree.right (h : TagFree (s ++ t)) : TagFree t := by
  rintro tag before rest ⟨complete, rfl⟩
  exact h tag (s ++ before) rest ⟨complete, by simp⟩

/-- Nothing is read in front of the tag that is found. -/
theorem tagFree_of_nextTag {seen : Text} (h : nextTag seen t = some (before, tag, rest)) :
    ∃ front, before = seen.reverse ++ front ∧ t = front ++ tag.source ++ rest ∧ TagFree front := by
  induction t generalizing seen with
  | nil => cases h
  | cons c r ih =>
    rw [nextTag] at h
    split at h
    · rename_i read
      cases h
      exact ⟨[], by simp, BraceTag.eq_of_read? read, tagFree_nil⟩
    · rename_i unread
      obtain ⟨front, rfl, rfl, free⟩ := ih h
      refine ⟨c :: front, by simp, by simp, ?_⟩
      rintro tag' before' rest' ⟨complete, e⟩
      cases before' with
      | nil =>
        -- A tag at the front is read whatever follows it.
        have read := complete.read (rest' ++ tag.source ++ rest)
        rw [← List.append_assoc, ← List.append_assoc, ← List.nil_append tag'.source, ← e,
          List.append_assoc, List.cons_append, ← List.append_assoc, unread] at read
        cases read
      | cons d before' =>
        exact free _ _ _ ⟨complete, (List.cons.inj e).2⟩

/-- The first tag of a text is the one that no tag stands before. -/
theorem nextTag_eq_some_iff :
    nextTag [] t = some (before, tag, rest) ↔ tag.Occurs before rest t ∧ TagFree before := by
  constructor
  · intro h
    obtain ⟨front, rfl, -, free⟩ := tagFree_of_nextTag h
    exact ⟨occurs_of_nextTag h, free⟩
  · rintro ⟨occurs, free⟩
    cases h : nextTag [] t with
    | none => exact absurd occurs (nextTag_eq_none_iff.1 h _ _ _)
    | some found =>
      obtain ⟨before', tag', rest'⟩ := found
      obtain ⟨front, rfl, -, free'⟩ := tagFree_of_nextTag h
      rcases occurs.cases (occurs_of_nextTag h) with ⟨rfl, rfl, rfl⟩ | ⟨mid, e, -⟩ | ⟨mid, e, -⟩
      · rfl
      · exact absurd ⟨occurs.complete, e⟩ (free' _ _ _)
      · exact absurd ⟨(occurs_of_nextTag h).complete, e⟩ (free _ _ _)

/-! ## Seams -/

/-- No tag of two texts put together lies across the seam. -/
def Apart (s t : Text) : Prop :=
  ∀ tag before rest, Occurs tag before rest (s ++ t) →
    (∃ mid, tag.Occurs before mid s ∧ rest = mid ++ t) ∨
    ∃ mid, before = s ++ mid ∧ tag.Occurs mid rest t

/-- Where a character stands in two texts put together, it stands in the first or in the second. -/
theorem append_eq_split {c : Char} (h : s ++ t = before ++ c :: after) :
    (∃ mid, s = before ++ c :: mid ∧ after = mid ++ t) ∨
    ∃ mid, before = s ++ mid ∧ t = mid ++ c :: after := by
  rcases List.append_eq_append_iff.1 h with ⟨mid, rfl, rfl⟩ | ⟨mid, rfl, e⟩
  · exact .inr ⟨mid, rfl, rfl⟩
  · cases mid with
    | nil => exact .inr ⟨[], by simp, e.symm⟩
    | cons d mid =>
      obtain ⟨rfl, rfl⟩ := List.cons.inj e
      exact .inl ⟨mid, rfl, rfl⟩

/-- The one opening brace of a tag is its first character. -/
theorem opens_at_start (complete : tag.Complete) (h : tag.source = before ++ '{' :: after) :
    before = [] := by
  obtain ⟨inner, plain, source⟩ := complete.source_eq
  rw [source] at h
  cases before with
  | nil => rfl
  | cons c before =>
    have inside : '{' ∈ inner ++ ['}'] := by
      rw [show inner ++ ['}'] = before ++ '{' :: after from (List.cons.inj h).2]
      simp
    rcases List.mem_append.1 inside with inside | inside
    · exact absurd (plain _ inside) (by decide)
    · exact absurd inside (by decide)

/-- The text in front of an opening brace is apart from the brace and all that follows. -/
theorem apart_brace (s t : Text) : Apart s ('{' :: t) := by
  rintro tag before rest ⟨complete, e⟩
  rw [List.append_assoc] at e
  rcases append_eq_split e.symm with ⟨mid, rfl, rfl⟩ | ⟨mid, rfl, opens⟩
  · exact .inr ⟨'{' :: mid, rfl, complete, by simp⟩
  · rcases append_eq_split opens with ⟨inner, source, rfl⟩ | ⟨mid, rfl, rfl⟩
    · obtain rfl := opens_at_start complete source
      exact .inr ⟨[], by simp, complete, by simp [source]⟩
    · exact .inl ⟨mid, ⟨complete, by simp⟩, rfl⟩

/-- A brace at which no tag is read is apart from what follows it. -/
theorem apart_of_unread (h : BraceTag.read? ('{' :: t) = none) : Apart ['{'] t := by
  rintro tag before rest ⟨complete, e⟩
  cases before with
  | nil =>
    have read := BraceTag.read?_eq_some_iff.2 ⟨complete, e⟩
    cases h.symm.trans read
  | cons c before =>
    obtain ⟨rfl, rfl⟩ := List.cons.inj e
    exact .inr ⟨before, rfl, complete, rfl⟩

theorem Apart.tagFree (apart : Apart s t) (hs : TagFree s) (ht : TagFree t) : TagFree (s ++ t) := by
  intro tag before rest occurs
  rcases apart tag before rest occurs with ⟨mid, occurs, -⟩ | ⟨mid, -, occurs⟩
  · exact hs _ _ _ occurs
  · exact ht _ _ _ occurs

theorem Apart.of_append_left (apart : Apart (u ++ s) t) : Apart s t := by
  rintro tag before rest ⟨complete, e⟩
  rcases apart tag (u ++ before) rest ⟨complete, by simp [e]⟩ with
    ⟨mid, ⟨-, e'⟩, rfl⟩ | ⟨mid, e', occurs⟩
  · rw [List.append_assoc, List.append_assoc, List.append_cancel_left_eq] at e'
    exact .inl ⟨mid, ⟨complete, by simp [e']⟩, rfl⟩
  · rw [List.append_assoc, List.append_cancel_left_eq] at e'
    exact .inr ⟨mid, e', occurs⟩

theorem Apart.of_append_right (apart : Apart s (t ++ u)) : Apart s t := by
  rintro tag before rest ⟨complete, e⟩
  rcases apart tag before (rest ++ u) ⟨complete, by simp [← List.append_assoc, e]⟩ with
    ⟨mid, occurs, e'⟩ | ⟨mid, rfl, -, e'⟩
  · rw [← List.append_assoc, List.append_cancel_right_eq] at e'
    exact .inl ⟨mid, occurs, e'⟩
  · rw [← List.append_assoc, List.append_cancel_right_eq] at e'
    exact .inr ⟨mid, rfl, complete, e'⟩

/-! ## One pass -/

variable {offset : Nat}

theorem pass_of_tagFree (offset : Nat) (h : TagFree t) : pass offset t = pure t := by
  rw [pass]
  split
  · rfl
  · rename_i found
    exact absurd (occurs_of_nextTag found) (h _ _ _)

/-- A pass replaces the first tag and goes on behind it. -/
theorem pass_tag (offset : Nat) (complete : tag.Complete) (free : TagFree before) (rest : Text) :
    pass offset (before ++ tag.source ++ rest) =
      resolve tag (offset + before.width) >>= fun words =>
        (before ++ words ++ ·) <$> pass (offset + before.width + tag.source.width) rest := by
  have first : nextTag [] (before ++ tag.source ++ rest) = some (before, tag, rest) :=
    nextTag_eq_some_iff.2 ⟨⟨complete, rfl⟩, free⟩
  rw [pass]
  split
  · rename_i none
    rw [first] at none
    cases none
  · rename_i found
    rw [first] at found
    cases found
    rfl

/-- A pass over two texts that are apart is a pass over each of them. -/
theorem pass_append (apart : Apart s t) :
    pass offset (s ++ t) =
      pass offset s >>= fun u => (u ++ ·) <$> pass (offset + s.width) t := by
  fun_induction pass offset s with
  | case1 offset s none =>
    have free := nextTag_eq_none_iff.1 none
    rw [pure_bind]
    cases found : nextTag [] t with
    | none =>
      have free' := nextTag_eq_none_iff.1 found
      rw [pass_of_tagFree _ (apart.tagFree free free'), pass_of_tagFree _ free', map_pure]
    | some found' =>
      obtain ⟨before, tag, rest⟩ := found'
      obtain ⟨⟨complete, rfl⟩, free'⟩ := nextTag_eq_some_iff.1 found
      have joined : TagFree (s ++ before) := by
        rw [List.append_assoc] at apart
        exact apart.of_append_right.tagFree free free'
      rw [pass_tag _ complete free', ← List.append_assoc, ← List.append_assoc,
        pass_tag offset complete joined rest]
      simp only [Text.width_append, map_eq_pure_bind, bind_assoc, pure_bind, List.append_assoc,
        Nat.add_assoc]
  | case2 offset s before tag rest found _ start ih =>
    obtain ⟨⟨complete, rfl⟩, free⟩ := nextTag_eq_some_iff.1 found
    rw [List.append_assoc, pass_tag _ complete free, ih apart.of_append_left]
    simp only [start, Text.width_append, map_eq_pure_bind, bind_assoc, pure_bind,
      List.append_assoc, Nat.add_assoc]

/-- Where a text begins matters only for its failures. -/
theorem pass_ok_anywhere (h : (pass offset t).answer = .ok u) (place : Nat) :
    (pass place t).answer = .ok u := by
  fun_induction pass offset t generalizing u place with
  | case1 offset t none =>
    rw [pass_of_tagFree _ (nextTag_eq_none_iff.1 none)]
    exact h
  | case2 offset t before tag rest found _ start =>
    rename_i ih
    obtain ⟨⟨complete, rfl⟩, free⟩ := nextTag_eq_some_iff.1 found
    obtain ⟨words, hwords, h⟩ := Logged.answer_bind_ok.1 h
    obtain ⟨v, hv, rfl⟩ := Logged.answer_map_ok.1 h
    rw [pass_tag _ complete free]
    exact Logged.answer_bind_ok.2 ⟨words, resolve_ok_iff.2 (resolve_ok_iff.1 hwords),
      Logged.answer_map_ok.2 ⟨v, ih hv _, rfl⟩⟩

theorem pass_tag_ok {words : Text} (complete : tag.Complete) (free : TagFree before)
    (render : tag.render = .ok words) (h : (pass 0 rest).answer = .ok u) :
    (pass 0 (before ++ tag.source ++ rest)).answer = .ok (before ++ words ++ u) := by
  rw [pass_tag _ complete free]
  exact Logged.answer_bind_ok.2 ⟨words, resolve_ok_iff.2 render,
    Logged.answer_map_ok.2 ⟨u, pass_ok_anywhere h _, rfl⟩⟩

theorem pass_append_ok (apart : Apart s t) {v : Text} (hs : (pass 0 s).answer = .ok u)
    (ht : (pass 0 t).answer = .ok v) : (pass 0 (s ++ t)).answer = .ok (u ++ v) := by
  rw [pass_append apart]
  exact Logged.answer_bind_ok.2 ⟨u, hs, Logged.answer_map_ok.2 ⟨v, pass_ok_anywhere ht _, rfl⟩⟩

/-! ## Braces that are left -/

theorem TagFree.unread (h : TagFree (before ++ t)) : BraceTag.read? t = none := by
  cases read : BraceTag.read? t with
  | none => rfl
  | some found =>
    obtain ⟨complete, e⟩ := BraceTag.read?_eq_some_iff.1 read
    exact absurd ⟨complete, by rw [e, List.append_assoc]⟩ (h found.1 before found.2)

/-- No tag is read in front of the first one. -/
theorem unread_of_nextTag {mid : Text} (ne : mid ≠ [])
    (h : nextTag [] t = some (before ++ mid, tag, rest)) :
    BraceTag.read? (mid ++ tag.source ++ rest) = none := by
  obtain ⟨⟨complete, -⟩, free⟩ := nextTag_eq_some_iff.1 h
  cases read : BraceTag.read? (mid ++ tag.source ++ rest) with
  | none => rfl
  | some found =>
    obtain ⟨tag', rest'⟩ := found
    obtain ⟨complete', e⟩ := BraceTag.read?_eq_some_iff.1 read
    rw [List.append_assoc] at e
    obtain ⟨between, rfl, -⟩ := complete'.apart complete ne e.symm
    exact absurd ⟨complete', (List.append_assoc _ _ _).symm⟩ (free tag' before between)

theorem pass_brace (offset : Nat) : pass offset ['{'] = pure ['{'] := by
  refine pass_of_tagFree offset ?_
  rintro tag before rest ⟨complete, e⟩
  have := congrArg (List.count '}') e
  simp [BraceTag.source] at this

/-- A brace at which no tag is read stays in its place. -/
theorem pass_unread_ok {v : Text} (unread : BraceTag.read? ('{' :: t) = none)
    (hs : (pass 0 s).answer = .ok u) (ht : (pass 0 t).answer = .ok v) :
    (pass 0 (s ++ '{' :: t)).answer = .ok (u ++ '{' :: v) := by
  refine pass_append_ok (apart_brace s t) hs ?_
  exact pass_append_ok (u := ['{']) (apart_of_unread unread) (by rw [pass_brace]; rfl) ht

/-- A brace that a pass leaves was a brace before; no tag was read there, and the texts in front of
it and behind it were passed over. -/
theorem pass_brace_origin (h : (pass offset t).answer = .ok (before ++ '{' :: after)) :
    ∃ front back, t = front ++ '{' :: back ∧ BraceTag.read? ('{' :: back) = none ∧
      (pass 0 front).answer = .ok before ∧ (pass 0 back).answer = .ok after := by
  fun_induction pass offset t generalizing before with
  | case1 offset t none =>
    obtain rfl : t = before ++ '{' :: after := Except.ok.inj h
    have free := nextTag_eq_none_iff.1 none
    refine ⟨before, after, rfl, free.unread, ?_, ?_⟩
    · rw [pass_of_tagFree 0 free.left]
      rfl
    · rw [pass_of_tagFree 0 (TagFree.right (s := ['{']) free.right)]
      rfl
  | case2 offset t front tag rest found _ start =>
    rename_i ih
    obtain ⟨⟨complete, rfl⟩, free⟩ := nextTag_eq_some_iff.1 found
    obtain ⟨words, hwords, h⟩ := Logged.answer_bind_ok.1 h
    obtain ⟨v, hv, e⟩ := Logged.answer_map_ok.1 h
    have render := resolve_ok_iff.1 hwords
    -- The brace is left from before the tag or from behind it, for its words have none.
    rcases append_eq_split e with ⟨mid, e', rfl⟩ | ⟨mid, rfl, rfl⟩
    · rcases append_eq_split e' with ⟨mid', rfl, rfl⟩ | ⟨mid', rfl, rfl⟩
      · have unread : BraceTag.read? ('{' :: mid' ++ tag.source ++ rest) = none :=
          unread_of_nextTag (List.cons_ne_nil _ _) found
        refine ⟨before, mid' ++ tag.source ++ rest, by simp, unread, ?_, ?_⟩
        · rw [pass_of_tagFree 0 free.left]
          rfl
        · exact pass_tag_ok complete (TagFree.right (s := before ++ ['{']) (by simpa using free))
            render (pass_ok_anywhere hv 0)
      · exact absurd (complete.words_braceless render '{' (by simp)) (by decide)
    · obtain ⟨x, y, rfl, unread, hx, hy⟩ := ih hv
      exact ⟨front ++ tag.source ++ x, y, by simp, unread, pass_tag_ok complete free render hx, hy⟩

/-! ## Failures -/

/-- A pass fails at the first tag that has no words. -/
theorem pass_error_iff {failure : Failure} :
    (pass offset t).answer = .error failure ↔
      ∃ before tag rest gap words, Occurs tag before rest t ∧
        (pass 0 before).answer = .ok words ∧ tag.render = .error gap ∧
        failure = .unrendered (.unusable gap) tag.source (offset + before.width) := by
  constructor
  · intro h
    fun_induction pass offset t with
    | case1 => cases h
    | case2 offset t before tag rest found _ start ih =>
      obtain ⟨occurs, free⟩ := nextTag_eq_some_iff.1 found
      rcases Logged.answer_bind_error.1 h with h | ⟨words, hwords, h⟩
      · obtain ⟨gap, render, rfl⟩ := resolve_error_iff.1 h
        have passed : (pass 0 before).answer = .ok before := by
          rw [pass_of_tagFree 0 free]
          rfl
        exact ⟨before, tag, rest, gap, before, occurs, passed, render, rfl⟩
      · obtain ⟨before', tag', rest', gap, others, ⟨complete', rfl⟩, hothers, render', rfl⟩ :=
          ih (Logged.answer_map_error.1 h)
        refine ⟨before ++ tag.source ++ before', tag', rest', gap, before ++ words ++ others,
          ⟨complete', by simp [occurs.split]⟩, ?_, render', ?_⟩
        · exact pass_tag_ok occurs.complete free (resolve_ok_iff.1 hwords) hothers
        · simp [start, Nat.add_assoc]
  · rintro ⟨before, tag, rest, gap, words, ⟨complete, rfl⟩, hwords, render, rfl⟩
    obtain ⟨inner, -, source⟩ := complete.source_eq
    have apart : Apart before (tag.source ++ rest) := by
      rw [source]
      exact apart_brace before _
    have first := pass_tag (offset + before.width) complete tagFree_nil rest
    rw [List.nil_append] at first
    rw [List.append_assoc, pass_append apart, first]
    refine Logged.answer_bind_error.2 (.inr ⟨words, pass_ok_anywhere hwords _, ?_⟩)
    refine Logged.answer_map_error.2 (Logged.answer_bind_error.2 (.inl ?_))
    exact resolve_error_iff.2 ⟨gap, render, by simp⟩

theorem resolveAll_of_pass (h : (pass 0 t).answer = .ok u) :
    (resolveAll t).answer = (resolveAll u).answer := by
  by_cases none : nextTag [] t = none
  · rw [pass_of_tagFree 0 (nextTag_eq_none_iff.1 none)] at h
    obtain rfl : t = u := Except.ok.inj h
    rfl
  · rw [resolveAll, dif_neg none]
    split
    · rename_i run
      rw [run] at h
      cases h
    · rename_i run
      rw [run] at h
      cases h
      rfl

theorem resolveAll_of_pass_error {failure : Failure} (h : (pass 0 t).answer = .error failure) :
    (resolveAll t).answer = .error failure := by
  by_cases none : nextTag [] t = none
  · rw [pass_of_tagFree 0 (nextTag_eq_none_iff.1 none)] at h
    cases h
  · rw [resolveAll, dif_neg none]
    split
    · rename_i run
      rw [run] at h
      exact h
    · rename_i run
      rw [run] at h
      cases h

/-- How the brace between `front` and `back` comes to open a complete tag: at once, or when passes
have gone over the two texts. `before` is what they leave of `front`, `rest` what follows the tag. -/
inductive Completes : Text → Text → Text → BraceTag → Text → Prop
  | now {front back rest : Text} {tag : BraceTag} :
      BraceTag.read? ('{' :: back) = some (tag, rest) → Completes front back front tag rest
  | later {front back front' back' before rest : Text} {tag : BraceTag} :
      BraceTag.read? ('{' :: back) = none → (pass 0 front).answer = .ok front' →
      (pass 0 back).answer = .ok back' → Completes front' back' before tag rest →
      Completes front back before tag rest

/-- A failure names a tag that has no words, once passes have completed it and gone over the tags in
front of it. -/
theorem resolveAll_error_iff {failure : Failure} :
    (resolveAll t).answer = .error failure ↔
      ∃ front back before tag rest gap words, t = front ++ '{' :: back ∧
        Completes front back before tag rest ∧ (pass 0 before).answer = .ok words ∧
        tag.render = .error gap ∧
        failure = .unrendered (.unusable gap) tag.source before.width := by
  constructor
  · intro h
    fun_induction resolveAll t with
    | case1 => cases h
    | case2 t _ journal failure' run =>
      have failed : (pass 0 t).answer = .error failure := by rw [run]; exact h
      obtain ⟨before, tag, rest, gap, words, ⟨complete, rfl⟩, hwords, render, rfl⟩ :=
        pass_error_iff.1 failed
      obtain ⟨inner, -, source⟩ := complete.source_eq
      have read : BraceTag.read? ('{' :: (inner ++ '}' :: rest)) = some (tag, rest) :=
        BraceTag.read?_eq_some_iff.2 ⟨complete, by simp [source]⟩
      exact ⟨before, inner ++ '}' :: rest, before, tag, rest, gap, words, by simp [source],
        .now read, hwords, render, by rw [Nat.zero_add]⟩
    | case3 t _ journal u run _ ih =>
      obtain ⟨front', back', before, tag, rest, gap, words, rfl, completes, hwords, render, e⟩ :=
        ih h
      have passed : (pass 0 t).answer = .ok (front' ++ '{' :: back') := by rw [run]
      obtain ⟨front, back, rfl, unread, hfront, hback⟩ := pass_brace_origin passed
      exact ⟨front, back, before, tag, rest, gap, words, rfl, .later unread hfront hback completes,
        hwords, render, e⟩
  · rintro ⟨front, back, before, tag, rest, gap, words, rfl, completes, hwords, render, rfl⟩
    induction completes with
    | @now front back rest tag read =>
      obtain ⟨complete, e⟩ := BraceTag.read?_eq_some_iff.1 read
      have occurs : tag.Occurs front rest (front ++ '{' :: back) :=
        ⟨complete, by rw [e, List.append_assoc]⟩
      exact resolveAll_of_pass_error (pass_error_iff.2
        ⟨front, tag, rest, gap, words, occurs, hwords, render, by rw [Nat.zero_add]⟩)
    | later unread hfront hback _ ih =>
      rw [resolveAll_of_pass (pass_unread_ok unread hfront hback)]
      exact ih hwords render

/-- Expanding a record fails exactly if a brace of its normalised text comes to open a tag that has
no words, while the tags in front of it have theirs. The offset reported is the length of what the
passes until then have left of the text in front of the brace; so it is the place of the brace in
the normalised text if the tag is complete there. -/
theorem expand_error_iff (t : Text) (failure : Failure) :
    (expand t).answer = .error failure ↔
      ∃ front back before tag rest gap words, normalise t = front ++ '{' :: back ∧
        Completes front back before tag rest ∧ (pass 0 before).answer = .ok words ∧
        tag.render = .error gap ∧ failure = .unrendered (.unusable gap) tag.source before.width :=
  resolveAll_error_iff

/-- The attack opens at byte 4, but it is reported where it stands when the tags before it and in it
are replaced, and no tag opens there in the normalised text. -/
theorem attack_displaced :
    (expand "{@h}{@atk {@i x}}".toList).answer =
      .error (.unrendered (.unusable .unknownAttackCode) "{@atk x}".toList 8) ∧
    ¬ ['{', '@'] <+: (normalise "{@h}{@atk {@i x}}".toList).dropBytes 8 := by
  constructor <;> decide +kernel

end RulesText.Brace
