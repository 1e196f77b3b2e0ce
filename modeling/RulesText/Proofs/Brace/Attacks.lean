/-
Attack codes are read as a set. The list of codes matters only through its members and the order in
which they are first met, which the repetitions, blanks and empty places in it leave alone; what
comes of it are the words for its distinct codes, or one of two failures (`render_attacks`).
-/
import Mathlib.Data.List.DropRight
import Mathlib.Data.Set.List
import RulesText.Brace.Tag

namespace RulesText

/-! ## First mentions -/

/-- A list has the members of another one, in the order in which they are first met in it. -/
structure FirstMentions {α : Type} [DecidableEq α] (all distinct : List α) : Prop where
  mem : ∀ x, x ∈ distinct ↔ x ∈ all
  ordered : distinct.Pairwise fun x y => all.idxOf x < all.idxOf y

namespace FirstMentions

variable {α β : Type} [DecidableEq α] [DecidableEq β] {all distinct distinct' : List α}

theorem nodup (h : FirstMentions all distinct) : distinct.Nodup :=
  h.ordered.imp fun lt e => by
    rw [e] at lt
    exact Nat.lt_irrefl _ lt

/-- There is only one way to list the members of a list by their first mentions. -/
theorem unique (h : FirstMentions all distinct) (h' : FirstMentions all distinct') :
    distinct = distinct' := by
  have perm : distinct.Perm distinct' :=
    (List.perm_ext_iff_of_nodup h.nodup h'.nodup).2 fun x => (h.mem x).trans (h'.mem x).symm
  exact List.Perm.eq_of_pairwise (fun x y _ _ lt gt => absurd lt (Nat.lt_asymm gt))
    h.ordered h'.ordered perm

/-- What is left when repetitions are dropped is the list of first mentions. -/
theorem eraseDups (all : List α) : FirstMentions all all.eraseDups := by
  refine ⟨fun x => List.mem_eraseDups, ?_⟩
  induction all using List.reverseRecOn with
  | nil => exact .nil
  | append_singleton all a ih =>
    -- What stands at the end changes no place of what was met before.
    have kept : all.eraseDups.Pairwise fun x y => (all ++ [a]).idxOf x < (all ++ [a]).idxOf y := by
      refine ih.imp_of_mem fun {x y} hx hy lt => ?_
      rwa [List.idxOf_append, List.idxOf_append, if_pos (List.mem_eraseDups.1 hx),
        if_pos (List.mem_eraseDups.1 hy)]
    rw [List.eraseDups_append]
    by_cases met : a ∈ all
    · have nothing : [a].removeAll all = [] := by simp [List.removeAll, met]
      simpa [nothing] using kept
    · have last : [a].removeAll all = [a] := by simp [List.removeAll, met]
      rw [last]
      refine List.pairwise_append.2 ⟨kept, by simp [List.eraseDups_cons], fun x hx y hy => ?_⟩
      obtain rfl : y = a := by simpa using hy
      have before := List.idxOf_lt_length_of_mem (List.mem_eraseDups.1 hx)
      rw [List.idxOf_append, List.idxOf_append, if_pos (List.mem_eraseDups.1 hx), if_neg met]
      omega

/-- A list without repetitions is its own list of first mentions. -/
theorem self (h : distinct.Nodup) : FirstMentions distinct distinct := by
  refine ⟨fun x => Iff.rfl, List.pairwise_iff_getElem.2 fun i j hi hj lt => ?_⟩
  rwa [h.idxOf_getElem, h.idxOf_getElem]

theorem idxOf_map {f : α → β} (injective : Function.Injective f) (all : List α) (x : α) :
    (all.map f).idxOf (f x) = all.idxOf x := by
  induction all with
  | nil => rfl
  | cons a all ih =>
    have same : (f a == f x) = (a == x) :=
      Bool.eq_iff_iff.2 (by simp [injective.eq_iff])
    rw [List.map_cons, List.idxOf_cons, List.idxOf_cons, same, ih]

theorem map {f : α → β} (injective : Function.Injective f) (h : FirstMentions all distinct) :
    FirstMentions (all.map f) (distinct.map f) where
  mem x := by simp only [List.mem_map, h.mem]
  ordered := by
    refine List.pairwise_map.2 (h.ordered.imp fun {x y} lt => ?_)
    rwa [idxOf_map injective, idxOf_map injective]

end FirstMentions

/-! ## Lists of codes -/

theorem Text.trim_trim (t : Text) : trim (trim t) = trim t := by
  have front : (trim t).dropWhile isBlank = trim t := by
    cases h : trim t with
    | nil => rfl
    | cons c r => exact List.dropWhile_cons_of_neg (by simp [head_trim h])
  rw [trim, front]
  exact List.rdropWhile_idempotent isBlank (t.dropWhile isBlank)

namespace Attack

/-- The codes in a list have no comma and no blanks around them, and they are not empty. -/
theorem listed_code {t code : Text} (h : code ∈ listed t) :
    ',' ∉ code ∧ Text.trim code = code ∧ code ≠ [] := by
  obtain ⟨mem, filled⟩ := List.mem_filter.1 h
  obtain ⟨field, field_mem, rfl⟩ := List.mem_map.1 mem
  refine ⟨fun comma => ?_, Text.trim_trim field, by simpa using filled⟩
  exact Text.not_mem_of_mem_fields field_mem (Text.mem_of_mem_trim comma)

/-- Codes with commas between them are listed again. -/
theorem listed_intercalate {codes : List Text}
    (h : ∀ code ∈ codes, ',' ∉ code ∧ Text.trim code = code ∧ code ≠ []) :
    listed ([','].intercalate codes) = codes := by
  cases codes with
  | nil => decide
  | cons code codes =>
    have trimmed : (code :: codes).map Text.trim = code :: codes :=
      (List.map_congr_left fun c hc => (h c hc).2.1).trans (List.map_id' _)
    rw [listed, Text.fields_intercalate (List.cons_ne_nil _ _) fun c hc => (h c hc).1, trimmed]
    exact List.filter_eq_self.2 fun c hc => by simpa using (h c hc).2.2

/-- The code that an attack is written as. -/
def code : Attack → Text
  | ⟨.melee, .weapon⟩ => "mw".toList
  | ⟨.ranged, .weapon⟩ => "rw".toList
  | ⟨.melee, .spell⟩ => "ms".toList
  | ⟨.ranged, .spell⟩ => "rs".toList

theorem ofCode?_code (a : Attack) : ofCode? a.code = some a := by
  obtain ⟨_ | _, _ | _⟩ := a <;> decide

theorem ofCode?_eq_some_iff {c : Text} {a : Attack} : ofCode? c = some a ↔ c = a.code := by
  constructor
  · intro h
    have written : ∀ p ∈ codes, p.1 = p.2.code := by decide
    obtain ⟨p, found, rfl⟩ := Option.map_eq_some_iff.1 h
    obtain rfl : p.1 = c := by simpa using List.find?_some found
    exact written p (List.mem_of_find?_eq_some found)
  · rintro rfl
    exact ofCode?_code a

theorem code_injective : Function.Injective code := fun a b e => by
  have := ofCode?_code a
  rw [e, ofCode?_code] at this
  exact (Option.some.inj this).symm

/-- The codes that attacks are written as. -/
def known : List Text := ["mw".toList, "rw".toList, "ms".toList, "rs".toList]

theorem mem_known {c : Text} : c ∈ known ↔ c ∈ Set.range code := by
  constructor
  · intro h
    simp only [known, List.mem_cons, List.not_mem_nil, or_false] at h
    rcases h with rfl | rfl | rfl | rfl
    · exact ⟨⟨.melee, .weapon⟩, rfl⟩
    · exact ⟨⟨.ranged, .weapon⟩, rfl⟩
    · exact ⟨⟨.melee, .spell⟩, rfl⟩
    · exact ⟨⟨.ranged, .spell⟩, rfl⟩
  · rintro ⟨⟨_ | _, _ | _⟩, rfl⟩ <;> decide

theorem ofCodes_map (attacks : List Attack) : ofCodes (attacks.map code) = .ok attacks := by
  induction attacks with
  | nil => rfl
  | cons a attacks ih =>
    rw [List.map_cons, ofCodes, ofCode?_code, ih]
    rfl

/-- One unknown code is enough, wherever it stands. -/
theorem ofCodes_unknown {l : List Text} {c : Text} (mem : c ∈ l) (unknown : c ∉ known) :
    ofCodes l = .error .unknownAttackCode := by
  induction l with
  | nil => cases mem
  | cons d l ih =>
    unfold ofCodes
    split
    · rfl
    · rename_i a found
      rcases List.mem_cons.1 mem with rfl | mem
      · exact absurd (mem_known.2 ⟨a, (ofCode?_eq_some_iff.1 found).symm⟩) unknown
      · rw [ih mem]
        rfl

/-- Some code is unknown, or there is none, or the codes are those of attacks. -/
theorem codes_cases (l : List Text) :
    (∃ c ∈ l, c ∉ known) ∨ l = [] ∨ ∃ attacks ≠ [], l = attacks.map code := by
  by_cases all : ∀ c ∈ l, c ∈ Set.range code
  · obtain ⟨attacks, rfl⟩ := (Set.range_list_map code).ge all
    rcases attacks with _ | ⟨a, attacks⟩
    · exact .inr (.inl rfl)
    · exact .inr (.inr ⟨a :: attacks, List.cons_ne_nil _ _, rfl⟩)
  · simp only [not_forall] at all
    obtain ⟨c, mem, unknown⟩ := all
    exact .inl ⟨c, mem, mt mem_known.1 unknown⟩

/-! ## Phrases -/

/-- The words for attacks, one or more: how far each of them reaches, and what they are made with,
once at the end if it is the same for all, and with each of them if it is not. -/
inductive Called : List Attack → Text → Prop
  | alike {attacks : List Attack} {means : Means} : attacks ≠ [] →
      (∀ a ∈ attacks, a.means = means) →
      Called attacks (" or ".toList.intercalate (attacks.map (·.reach.word)) ++ ' ' :: means.word)
  | mixed {attacks : List Attack} {a b : Attack} : a ∈ attacks → b ∈ attacks →
      a.means ≠ b.means →
      Called attacks
        (" or ".toList.intercalate (attacks.map fun a => a.reach.word ++ ' ' :: a.means.word))

theorem Called.ne_nil {attacks : List Attack} {t : Text} (h : Called attacks t) : attacks ≠ [] := by
  cases h with
  | alike ne _ => exact ne
  | mixed ha => exact List.ne_nil_of_mem ha

theorem called_iff {first : Attack} {rest : List Attack} {t : Text} :
    Called (first :: rest) t ↔ t = phrase (first :: rest) first.means := by
  unfold phrase
  split
  · rename_i alike
    have alike : ∀ a ∈ first :: rest, a.means = first.means := by simpa using alike
    constructor
    · intro h
      cases h with
      | alike _ same => rw [same first List.mem_cons_self]
      | mixed ha hb ne => exact absurd ((alike _ ha).trans (alike _ hb).symm) ne
    · rintro rfl
      exact .alike (List.cons_ne_nil _ _) alike
  · rename_i mixed
    obtain ⟨b, hb, ne⟩ : ∃ b ∈ first :: rest, b.means ≠ first.means := by simpa using mixed
    constructor
    · intro h
      cases h with
      | alike _ same => exact absurd ((same b hb).trans (same first List.mem_cons_self).symm) ne
      | mixed => rfl
    · rintro rfl
      exact .mixed hb List.mem_cons_self ne

/-- The words begin with the word for a reach. -/
theorem Called.begins {attacks : List Attack} {t : Text} (h : Called attacks t) :
    ∃ (reach : Reach) (rest : Text), t = reach.word ++ rest := by
  have first (a : Attack) (behind : Text) (ts : List Text) :
      ∃ rest, " or ".toList.intercalate ((a.reach.word ++ behind) :: ts) = a.reach.word ++ rest := by
    cases ts with
    | nil => exact ⟨behind, List.intercalate_singleton⟩
    | cons t ts => exact ⟨_, by rw [List.intercalate_cons_cons, List.append_assoc,
        List.append_assoc]⟩
  cases h with
  | alike ne _ =>
    obtain ⟨a, rest, rfl⟩ := List.exists_cons_of_ne_nil ne
    obtain ⟨behind, e⟩ := first a [] (rest.map (·.reach.word))
    rw [List.append_nil] at e
    exact ⟨a.reach, _, by rw [List.map_cons, e, List.append_assoc]⟩
  | mixed ha =>
    obtain ⟨a, rest, rfl⟩ := List.exists_cons_of_ne_nil (List.ne_nil_of_mem ha)
    obtain ⟨behind, e⟩ := first a (' ' :: a.means.word) _
    exact ⟨a.reach, behind, e⟩

/-- There is one way to say what attacks are. -/
theorem Called.unique {attacks : List Attack} {t u : Text} (h : Called attacks t)
    (h' : Called attacks u) : t = u := by
  rcases attacks with _ | ⟨first, rest⟩
  · exact absurd rfl h.ne_nil
  · rw [called_iff.1 h, called_iff.1 h']

/-- A text without letters in upper case. -/
def Lower (t : Text) : Prop := ∀ c ∈ t, c.isUpper = false

instance (t : Text) : Decidable (Lower t) :=
  decidable_of_iff (t.all (!·.isUpper) = true) (by simp [Lower])

theorem Lower.append {s t : Text} (hs : Lower s) (ht : Lower t) : Lower (s ++ t) :=
  List.forall_mem_append.2 ⟨hs, ht⟩

theorem Lower.intercalate {sep : Text} {ts : List Text} (hsep : Lower sep)
    (hts : ∀ t ∈ ts, Lower t) : Lower (sep.intercalate ts) := by
  intro c hc
  rcases Text.mem_of_mem_intercalate hc with hc | ⟨t, ht, hc⟩
  · exact hsep c hc
  · exact hts t ht c hc

theorem reach_lower (r : Reach) : Lower r.word := by
  cases r <;> decide

theorem means_lower (m : Means) : Lower (' ' :: m.word) := by
  cases m <;> decide

/-- No letter of the words is in upper case. -/
theorem Called.lower {attacks : List Attack} {t : Text} (h : Called attacks t) : Lower t := by
  have sep : Lower " or ".toList := by decide
  cases h with
  | alike =>
    refine (Lower.intercalate sep fun t ht => ?_).append (means_lower _)
    obtain ⟨a, -, rfl⟩ := List.mem_map.1 ht
    exact reach_lower a.reach
  | mixed =>
    refine Lower.intercalate sep fun t ht => ?_
    obtain ⟨a, -, rfl⟩ := List.mem_map.1 ht
    exact (reach_lower a.reach).append (means_lower a.means)

/-- The first letter of the words has an upper case. -/
theorem Called.first_upper {attacks : List Attack} {c : Char} {words : Text}
    (h : Called attacks (c :: words)) : c.toUpper.isUpper = true := by
  obtain ⟨reach, rest, e⟩ := h.begins
  cases reach <;> cases e <;> decide

/-! ## Rendering -/

variable {t : Text}

theorem render_unknown {c : Text} (mem : c ∈ listed t) (unknown : c ∉ known) :
    render t = .error .unknownAttackCode := by
  rw [render, ofCodes_unknown mem unknown]

theorem render_nil (h : listed t = []) : render t = .error .noAttackCode := by
  rw [render, h]
  rfl

/-- Codes of attacks are rendered as the words for those that are left without repetitions. -/
theorem render_map {attacks : List Attack} (ne : attacks ≠ []) (h : listed t = attacks.map code) :
    ∃ c words, Called attacks.eraseDups (c :: words) ∧
      render t = .ok (c.toUpper :: words ++ " attack".toList) := by
  obtain ⟨first, rest, e⟩ : ∃ first rest, attacks.eraseDups = first :: rest := by
    obtain ⟨a, attacks, rfl⟩ := List.exists_cons_of_ne_nil ne
    exact ⟨a, _, List.eraseDups_cons⟩
  have called := called_iff.2 (rfl : phrase (first :: rest) first.means = _)
  obtain ⟨reach, behind, begins⟩ := called.begins
  obtain ⟨c, r, word⟩ : ∃ c r, reach.word = c :: r := by cases reach <;> exact ⟨_, _, rfl⟩
  rw [word, List.cons_append] at begins
  refine ⟨c, r ++ behind, by rwa [e, ← begins], ?_⟩
  simp only [render, h, ofCodes_map, e, begins, capitalised]

/-- A text comes of the codes exactly if it says what attacks their first mentions are. -/
theorem render_eq_ok_iff {text : Text} :
    render t = .ok text ↔ ∃ attacks c words, FirstMentions (listed t) (attacks.map code) ∧
      Called attacks (c :: words) ∧ text = c.toUpper :: words ++ " attack".toList := by
  have mentions {attacks : List Attack} (e : listed t = attacks.map code) :
      FirstMentions (listed t) (attacks.eraseDups.map code) := by
    rw [e]
    exact (FirstMentions.eraseDups attacks).map code_injective
  constructor
  · intro h
    rcases codes_cases (listed t) with ⟨c, mem, unknown⟩ | nil | ⟨attacks, ne, e⟩
    · rw [render_unknown mem unknown] at h
      cases h
    · rw [render_nil nil] at h
      cases h
    · obtain ⟨c, words, called, rendered⟩ := render_map ne e
      cases rendered.symm.trans h
      exact ⟨_, c, words, mentions e, called, rfl⟩
  · rintro ⟨attacks, c, words, first, called, rfl⟩
    rcases codes_cases (listed t) with ⟨d, mem, unknown⟩ | nil | ⟨all, ne, e⟩
    · obtain ⟨a, -, rfl⟩ := List.mem_map.1 ((first.mem d).2 mem)
      exact absurd (mem_known.2 ⟨a, rfl⟩) unknown
    · obtain ⟨a, rest, rfl⟩ := List.exists_cons_of_ne_nil called.ne_nil
      have mem := (first.mem a.code).1 List.mem_cons_self
      rw [nil] at mem
      cases mem
    · obtain ⟨d, words', called', rendered⟩ := render_map ne e
      obtain rfl := code_injective.list_map (first.unique (mentions e))
      cases called.unique called'
      exact rendered

/-- Lists of codes with the same first mentions are rendered alike. -/
theorem render_congr {u : Text} {distinct : List Text} (h : FirstMentions (listed t) distinct)
    (h' : FirstMentions (listed u) distinct) : render t = render u := by
  have mem (c : Text) : c ∈ listed t ↔ c ∈ listed u := (h.mem c).symm.trans (h'.mem c)
  rcases codes_cases (listed t) with ⟨c, listed, unknown⟩ | nil | ⟨attacks, ne, e⟩
  · rw [render_unknown listed unknown, render_unknown ((mem c).1 listed) unknown]
  · have nil' : listed u = [] :=
      List.eq_nil_iff_forall_not_mem.2 fun c hc => by simpa [nil] using (mem c).2 hc
    rw [render_nil nil, render_nil nil']
  · obtain ⟨c, words, -, rendered⟩ := render_map ne e
    obtain ⟨attacks, c, words, first, called, text⟩ := render_eq_ok_iff.1 rendered
    rw [h.unique first] at h'
    rw [rendered, render_eq_ok_iff.2 ⟨attacks, c, words, h', called, text⟩]

/-- There are two ways to fail: with a code that is not known, and without a code. -/
theorem render_eq_error_iff {gap : Gap} :
    render t = .error gap ↔ gap = .unknownAttackCode ∧ (∃ c ∈ listed t, c ∉ known) ∨
      gap = .noAttackCode ∧ listed t = [] := by
  constructor
  · intro h
    rcases codes_cases (listed t) with ⟨c, mem, unknown⟩ | nil | ⟨attacks, ne, e⟩
    · rw [render_unknown mem unknown] at h
      cases h
      exact .inl ⟨rfl, c, mem, unknown⟩
    · rw [render_nil nil] at h
      cases h
      exact .inr ⟨rfl, nil⟩
    · obtain ⟨c, words, -, rendered⟩ := render_map ne e
      cases rendered.symm.trans h
  · rintro (⟨rfl, c, mem, unknown⟩ | ⟨rfl, nil⟩)
    · exact render_unknown mem unknown
    · exact render_nil nil

/-- Some text comes of the codes exactly if there are any and all of them are known. -/
theorem exists_render_iff :
    (∃ text, render t = .ok text) ↔ listed t ≠ [] ∧ ∀ c ∈ listed t, c ∈ known := by
  constructor
  · rintro ⟨text, h⟩
    refine ⟨fun nil => ?_, fun c mem => Decidable.byContradiction fun unknown => ?_⟩
    · cases h.symm.trans (render_nil nil)
    · cases h.symm.trans (render_unknown mem unknown)
  · rintro ⟨ne, all⟩
    rcases codes_cases (listed t) with ⟨c, mem, unknown⟩ | nil | ⟨attacks, some, e⟩
    · exact absurd (all c mem) unknown
    · exact absurd nil ne
    · obtain ⟨c, words, -, rendered⟩ := render_map some e
      exact ⟨_, rendered⟩

/-- A list of codes is rendered like its first mentions with commas between them. -/
theorem render_distinct {distinct : List Text} (h : FirstMentions (listed t) distinct) :
    render t = render ([','].intercalate distinct) := by
  refine render_congr h ?_
  rw [listed_intercalate fun c hc => listed_code ((h.mem c).1 hc)]
  exact .self h.nodup

/-- Only the first letter of what is rendered is in upper case. -/
theorem render_upper {text : Text} (h : render t = .ok text) :
    ∃ c rest, text = c :: rest ∧ c.isUpper = true ∧ Lower rest := by
  obtain ⟨attacks, c, words, -, called, rfl⟩ := render_eq_ok_iff.1 h
  have lower : Lower words := fun d hd => called.lower d (List.mem_cons_of_mem c hd)
  exact ⟨_, _, rfl, called.first_upper, lower.append (by decide)⟩

/-! ## Attack tags -/

theorem render_tag {tag : BraceTag} (named : tag.name = "atk".toList) :
    tag.render = render tag.arguments := by
  have attack : tag.use = .attack := by
    rw [BraceTag.use, named]
    decide
  rw [BraceTag.render, attack, BraceTag.renderUse]

/-- The argument of an attack tag is read as a set of codes. It fails with an unknown code exactly
if one of the codes, at any place, is not known, and for want of a code exactly if there is none.
Else the words are those for the attacks whose codes are met, each once, in the order of their first
mentions; they are the same as for the list of these codes alone, and only the first letter is in
upper case. -/
theorem render_attacks (arguments : Text) :
    (∀ tag : BraceTag, tag.name = "atk".toList → tag.arguments = arguments →
      tag.render = render arguments) ∧
    ((∃ gap, render arguments = .error gap ∧ gap.reason = "has an unknown attack code".toList) ↔
      ∃ c ∈ listed arguments, c ∉ known) ∧
    ((∃ gap, render arguments = .error gap ∧ gap.reason = "has no attack code".toList) ↔
      listed arguments = []) ∧
    ((∃ text, render arguments = .ok text) ↔
      listed arguments ≠ [] ∧ ∀ c ∈ listed arguments, c ∈ known) ∧
    (∀ text, render arguments = .ok text ↔ ∃ attacks c words,
      FirstMentions (listed arguments) (attacks.map code) ∧ Called attacks (c :: words) ∧
      text = c.toUpper :: words ++ " attack".toList) ∧
    (∀ distinct, FirstMentions (listed arguments) distinct →
      render arguments = render ([','].intercalate distinct)) ∧
    ∀ text, render arguments = .ok text →
      ∃ c rest, text = c :: rest ∧ c.isUpper = true ∧ Lower rest := by
  refine ⟨fun tag named argument => argument ▸ render_tag named, ⟨?_, fun unknown => ?_⟩,
    ⟨?_, fun nil => ?_⟩, exists_render_iff, fun _ => render_eq_ok_iff, fun _ => render_distinct,
    fun _ => render_upper⟩
  · rintro ⟨gap, h, reason⟩
    rcases render_eq_error_iff.1 h with ⟨-, unknown⟩ | ⟨rfl, -⟩
    · exact unknown
    · exact absurd reason (by decide)
  · exact ⟨_, render_eq_error_iff.2 (.inl ⟨rfl, unknown⟩), rfl⟩
  · rintro ⟨gap, h, reason⟩
    rcases render_eq_error_iff.1 h with ⟨rfl, -⟩ | ⟨-, nil⟩
    · exact absurd reason (by decide)
    · exact nil
  · exact ⟨_, render_eq_error_iff.2 (.inr ⟨rfl, nil⟩), rfl⟩

/-- Codes are repeated, and there are blanks and an empty place between them; the attacks are told
apart by what they are made with. -/
theorem repeated_codes_rendered :
    BraceTag.render ⟨"atk".toList, " mw,, rs ,mw".toList⟩ =
        .ok "Melee weapon or ranged spell attack".toList ∧
      FirstMentions (listed "mw,, rs ,mw".toList) ["mw".toList, "rs".toList] ∧
      render "mw,, rs ,mw".toList = render "mw,rs".toList ∧
      ∃ c rest, "Melee weapon or ranged spell attack".toList = c :: rest ∧ c.isUpper = true ∧
        Lower rest := by
  have codes : listed "mw,, rs ,mw".toList = ["mw".toList, "rs".toList, "mw".toList] := by decide
  have first : FirstMentions (listed "mw,, rs ,mw".toList) ["mw".toList, "rs".toList] := by
    rw [codes]
    exact FirstMentions.eraseDups ["mw".toList, "rs".toList, "mw".toList]
  have called : Called [⟨.melee, .weapon⟩, ⟨.ranged, .spell⟩]
      "melee weapon or ranged spell".toList :=
    .mixed (a := ⟨.melee, .weapon⟩) (b := ⟨.ranged, .spell⟩) (by decide) (by decide) (by decide)
  obtain ⟨tag, -, -, -, words, distinct, upper⟩ := render_attacks "mw,, rs ,mw".toList
  have rendered : render "mw,, rs ,mw".toList =
      .ok "Melee weapon or ranged spell attack".toList :=
    (words _).2 ⟨[⟨.melee, .weapon⟩, ⟨.ranged, .spell⟩], _, _, first, called, rfl⟩
  exact ⟨(tag _ rfl (by decide)).trans rendered, first, distinct _ first, upper _ rendered⟩

end Attack

end RulesText
