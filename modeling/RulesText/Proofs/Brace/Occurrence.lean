/-
Where the tags of a brace record stand. A complete tag is read wherever it stands and whatever
follows it (`read?_eq_some_iff`); its only braces are its ends, so two tags in one text are the same
or do not touch (`Occurs.cases`).
-/
import RulesText.Brace.Expand

namespace RulesText

namespace BraceTag

/-! ## Complete tags -/

/-- A tag in its full form: letters for a name, then nothing, or a blank and more without braces. -/
structure Complete (tag : BraceTag) : Prop where
  named : tag.name ≠ []
  letters : ∀ c ∈ tag.name, c.isAlpha = true
  blank : ∀ c ∈ tag.tail.head?, Text.isBlank c = true
  braceless : Braceless tag.tail

theorem toNat_of_isAlpha {c : Char} (h : c.isAlpha = true) :
    65 ≤ c.toNat ∧ c.toNat ≤ 90 ∨ 97 ≤ c.toNat ∧ c.toNat ≤ 122 := by
  have ranges : (decide (c.val ≥ 'A'.val ∧ c.val ≤ 'Z'.val) ||
      (decide (c.val ≥ 'a'.val) && decide (c.val ≤ 'z'.val))) = true := h
  simpa [UInt32.le_iff_toNat_le] using ranges

theorem isAlpha_of_isBlank {c : Char} (h : Text.isBlank c = true) : c.isAlpha = false := by
  cases letter : c.isAlpha with
  | false => rfl
  | true =>
    have := toNat_of_isAlpha letter
    simp [Text.isBlank, Text.within, Text.blankRanges] at h
    omega

theorem isBrace_of_isAlpha {c : Char} (h : c.isAlpha = true) : isBrace c = false := by
  simp only [isBrace, Bool.or_eq_false_iff, decide_eq_false_iff_not]
  constructor <;> rintro rfl <;> exact absurd h (by decide)

theorem tail_blank {t tail rest : Text} (h : tail? t = some (tail, rest)) :
    ∀ c ∈ tail.head?, Text.isBlank c = true := by
  unfold tail? at h
  split at h
  · cases h
  · split at h
    · cases h
      simp
    · split at h
      · rename_i blank
        split at h
        · cases h
          intro d hd
          rw [List.head?_takeWhile] at hd
          cases (Option.mem_filter_iff.1 hd).1
          exact blank
        · cases h
      · cases h

/-- The rest of a tag is read up to the brace that closes it. -/
theorem tail?_append {tail : Text} (blank : ∀ c ∈ tail.head?, Text.isBlank c = true)
    (braceless : Braceless tail) (rest : Text) : tail? (tail ++ '}' :: rest) = some (tail, rest) := by
  cases tail with
  | nil => rfl
  | cons c r =>
    have plain : ∀ d ∈ c :: r, (!isBrace d) = true := fun d hd => by rw [braceless d hd]; rfl
    have closing : c ≠ '}' := by
      rintro rfl
      exact absurd (braceless _ List.mem_cons_self) (by decide)
    rw [List.cons_append, tail?, if_neg closing, if_pos (blank c rfl), ← List.cons_append,
      List.dropWhile_append_of_pos plain, List.takeWhile_append_of_pos plain]
    simp [isBrace]

/-- Exactly the complete tags are read, whatever follows them. -/
theorem read?_eq_some_iff {t rest : Text} {tag : BraceTag} :
    read? t = some (tag, rest) ↔ tag.Complete ∧ t = tag.source ++ rest := by
  constructor
  · intro h
    refine ⟨?_, eq_of_read? h⟩
    unfold read? at h
    split at h
    · rename_i r
      split at h
      · cases h
      · rename_i named
        obtain ⟨⟨tail, rest'⟩, htail, htag⟩ := Option.map_eq_some_iff.1 h
        cases htag
        exact ⟨by simpa using named, fun c hc => List.all_eq_true.1 List.all_takeWhile c hc,
          tail_blank htail, tail_braceless htail⟩
    · cases h
  · rintro ⟨⟨named, letters, blank, braceless⟩, rfl⟩
    -- What follows the name is a blank or the closing brace, and neither is a letter.
    obtain ⟨c, behind, e, hc⟩ : ∃ c behind, tag.tail ++ '}' :: rest = c :: behind ∧
        c.isAlpha = false := by
      cases tail : tag.tail with
      | nil => exact ⟨'}', rest, rfl, by decide⟩
      | cons c r => exact ⟨c, r ++ '}' :: rest, rfl, isAlpha_of_isBlank (blank c (by simp [tail]))⟩
    have source : tag.source ++ rest = '{' :: '@' :: (tag.name ++ c :: behind) := by
      simp [BraceTag.source, ← e]
    rw [source, read?, List.takeWhile_append_of_pos letters, List.dropWhile_append_of_pos letters,
      List.takeWhile_cons_of_neg (by simp [hc]), List.dropWhile_cons_of_neg (by simp [hc]), ← e,
      tail?_append blank braceless, List.append_nil, if_neg (by simpa using named)]
    rfl

instance (tag : BraceTag) : Decidable tag.Complete :=
  decidable_of_iff (read? tag.source = some (tag, [])) (by simp [read?_eq_some_iff])

theorem Complete.read {tag : BraceTag} (h : tag.Complete) (rest : Text) :
    read? (tag.source ++ rest) = some (tag, rest) :=
  read?_eq_some_iff.2 ⟨h, rfl⟩

theorem Complete.words_braceless {tag : BraceTag} {words : Text} (h : tag.Complete)
    (render : tag.render = .ok words) : Braceless words :=
  render_braceless (h.read []) render

/-! ## Tags in a text -/

/-- A complete tag stands in a text, between `before` and `rest`. -/
structure Occurs (tag : BraceTag) (before rest t : Text) : Prop where
  complete : tag.Complete
  split : t = before ++ tag.source ++ rest

/-- The only braces of a complete tag are its ends. -/
theorem Complete.source_eq {tag : BraceTag} (h : tag.Complete) :
    ∃ inner, Braceless inner ∧ tag.source = '{' :: inner ++ ['}'] :=
  ⟨'@' :: (tag.name ++ tag.tail),
    .cons (by decide) (.append (fun c hc => isBrace_of_isAlpha (h.letters c hc)) h.braceless),
    by simp [source]⟩

/-- A tag that begins behind the start of another one begins behind its end. -/
theorem Complete.apart {tag tag' : BraceTag} {between rest rest' : Text} (h : tag.Complete)
    (h' : tag'.Complete) (ne : between ≠ [])
    (e : tag.source ++ rest = between ++ (tag'.source ++ rest')) :
    ∃ mid, between = tag.source ++ mid ∧ rest = mid ++ (tag'.source ++ rest') := by
  obtain ⟨inner, plain, source⟩ := h.source_eq
  obtain ⟨inner', -, source'⟩ := h'.source_eq
  obtain ⟨d, a, rfl⟩ := List.exists_cons_of_ne_nil ne
  rw [source, source'] at e ⊢
  simp only [List.cons_append, List.append_assoc, List.nil_append, List.cons.injEq] at e ⊢
  obtain ⟨rfl, e⟩ := e
  -- The second tag opens inside the first, or at its end, or behind it; only the last is possible.
  rcases List.append_eq_append_iff.1 e with ⟨mid, rfl, close⟩ | ⟨mid, rfl, opens⟩
  · cases mid with
    | nil => simp at close
    | cons c mid =>
      obtain ⟨rfl, rfl⟩ := List.cons.inj close
      exact ⟨mid, by simp, rfl⟩
  · cases mid with
    | nil => simp at opens
    | cons c mid =>
      obtain ⟨rfl, -⟩ := List.cons.inj opens
      exact absurd (plain '{' (by simp)) (by decide)

variable {tag tag' : BraceTag} {before before' rest rest' t : Text}

theorem Occurs.cases_of_le (h : tag.Occurs before rest t) (h' : tag'.Occurs before' rest' t)
    (le : before <+: before') :
    (tag = tag' ∧ before = before' ∧ rest = rest') ∨
    ∃ mid, before' = before ++ tag.source ++ mid ∧ rest = mid ++ tag'.source ++ rest' := by
  obtain ⟨between, rfl⟩ := le
  have e := h.split.symm.trans h'.split
  simp only [List.append_assoc, List.append_cancel_left_eq] at e
  by_cases hb : between = []
  · -- Both tags are read at the same place.
    rw [hb, List.nil_append] at e
    have first := h.complete.read rest
    rw [read?_eq_some_iff.2 ⟨h'.complete, e⟩] at first
    cases first
    exact .inl ⟨rfl, by rw [hb, List.append_nil], rfl⟩
  · obtain ⟨mid, rfl, rfl⟩ := h.complete.apart h'.complete hb e
    exact .inr ⟨mid, by simp, by simp⟩

/-- Two tags in a text are the same one, or one stands behind the other. -/
theorem Occurs.cases (h : tag.Occurs before rest t) (h' : tag'.Occurs before' rest' t) :
    (tag = tag' ∧ before = before' ∧ rest = rest') ∨
    (∃ mid, before' = before ++ tag.source ++ mid ∧ rest = mid ++ tag'.source ++ rest') ∨
    ∃ mid, before = before' ++ tag'.source ++ mid ∧ rest' = mid ++ tag.source ++ rest := by
  have prefixes : before <+: t ∧ before' <+: t := by
    constructor
    · exact ⟨tag.source ++ rest, by rw [h.split, List.append_assoc]⟩
    · exact ⟨tag'.source ++ rest', by rw [h'.split, List.append_assoc]⟩
  rcases List.prefix_or_prefix_of_prefix prefixes.1 prefixes.2 with le | le
  · rcases h.cases_of_le h' le with same | behind
    · exact .inl same
    · exact .inr (.inl behind)
  · rcases h'.cases_of_le h le with ⟨rfl, rfl, rfl⟩ | behind
    · exact .inl ⟨rfl, rfl, rfl⟩
    · exact .inr (.inr behind)

end BraceTag

namespace Brace

/-! ## Searching -/

/-- The first tag of a text, if there is one, stands in the text. -/
theorem occurs_of_nextTag {t before rest : Text} {tag : BraceTag}
    (h : nextTag [] t = some (before, tag, rest)) : tag.Occurs before rest t := by
  obtain ⟨e, inner, read⟩ := eq_of_nextTag h
  exact ⟨(BraceTag.read?_eq_some_iff.1 read).1, e⟩

/-- No complete tag stands in a text. -/
def TagFree (t : Text) : Prop := ∀ tag before rest, ¬ BraceTag.Occurs tag before rest t

theorem nextTag_ne_none {seen before rest : Text} {tag : BraceTag} (h : tag.Complete) :
    nextTag seen (before ++ tag.source ++ rest) ≠ none := by
  induction before generalizing seen with
  | nil =>
    have read := h.read rest
    obtain ⟨inner, -, source⟩ := h.source_eq
    simp only [source, List.nil_append, List.cons_append] at read ⊢
    rw [nextTag, read]
    exact Option.some_ne_none _
  | cons c before ih =>
    rw [List.cons_append, List.cons_append, nextTag]
    split
    · exact Option.some_ne_none _
    · exact ih

theorem nextTag_eq_none_iff {t : Text} : nextTag [] t = none ↔ TagFree t := by
  constructor
  · rintro none tag before rest ⟨complete, rfl⟩
    exact nextTag_ne_none complete none
  · intro free
    cases h : nextTag [] t with
    | none => rfl
    | some found => exact absurd (occurs_of_nextTag h) (free _ _ _)

end Brace

end RulesText
