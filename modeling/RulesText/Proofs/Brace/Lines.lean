/-
Records of several lines. A line that closes its braces shares no tag with what follows it, neither
at once nor after any number of steps, since a step keeps braces matched; and no announcement goes
on over the end of a line. So such a line and the text behind it are expanded apart
(`expand_lines`).
-/
import RulesText.Proofs.Brace.NormalForm

namespace RulesText.Brace

open BraceTag (Occurs Complete)

variable {s t u v : Text}

/-! ## Matching braces -/

/-- The braces of a text match each other. -/
inductive Matched : Text → Prop
  | nil : Matched []
  | char {c : Char} {t : Text} : BraceTag.isBrace c = false → Matched t → Matched (c :: t)
  | pair {inner t : Text} : Matched inner → Matched t → Matched ('{' :: inner ++ '}' :: t)

/-- Every opening brace of a text is matched by a closing brace behind it. Other closing braces may
stand anywhere. -/
def ClosesBraces (t : Text) : Prop :=
  ∀ front back : Text, t = front ++ '{' :: back →
    ∃ inner rest, back = inner ++ '}' :: rest ∧ Matched inner

/-- How many braces are open behind a text if `depth` are open in front of it; a closing brace that
has none to close does not count. -/
def openBraces (depth : Nat) : Text → Nat
  | [] => depth
  | c :: r => openBraces (if c = '{' then depth + 1 else if c = '}' then depth - 1 else depth) r

@[simp] theorem openBraces_nil (depth : Nat) : openBraces depth [] = depth := rfl

@[simp] theorem openBraces_open (depth : Nat) (t : Text) :
    openBraces depth ('{' :: t) = openBraces (depth + 1) t := rfl

@[simp] theorem openBraces_close (depth : Nat) (t : Text) :
    openBraces depth ('}' :: t) = openBraces (depth - 1) t := rfl

theorem openBraces_char {c : Char} (h : BraceTag.isBrace c = false) (depth : Nat) (t : Text) :
    openBraces depth (c :: t) = openBraces depth t := by
  simp only [BraceTag.isBrace, Bool.or_eq_false_iff, decide_eq_false_iff_not] at h
  rw [openBraces, if_neg h.1, if_neg h.2]

@[simp] theorem openBraces_append (depth : Nat) (s t : Text) :
    openBraces depth (s ++ t) = openBraces (openBraces depth s) t := by
  induction s generalizing depth with
  | nil => rfl
  | cons c s ih => exact ih _

/-- Matched braces leave those around them as they are. -/
theorem Matched.openBraces (h : Matched t) (depth : Nat) : openBraces depth t = depth := by
  induction h generalizing depth with
  | nil => rfl
  | char plain _ ih => rw [openBraces_char plain, ih]
  | pair _ _ ihInner ih => simp [ihInner, ih]

theorem matched_of_braceless (h : Braceless t) : Matched t := by
  induction t with
  | nil => exact .nil
  | cons c t ih => exact .char (h c (by simp)) (ih fun d hd => h d (by simp [hd]))

/-- The ends of a tag match each other. -/
theorem matched_source {tag : BraceTag} (h : tag.Complete) : Matched tag.source := by
  obtain ⟨inner, plain, source⟩ := h.source_eq
  rw [source]
  exact .pair (matched_of_braceless plain) .nil

theorem ClosesBraces.right (h : ClosesBraces (s ++ t)) : ClosesBraces t := by
  rintro front back rfl
  exact h (s ++ front) back (by simp)

/-- Where fewer braces are open behind a text than in front of it, the last of them is matched. -/
theorem exists_matched {depth : Nat} (h : openBraces (depth + 1) t ≤ depth) :
    ∃ inner rest, t = inner ++ '}' :: rest ∧ Matched inner := by
  -- The induction is on the length, for a pair in front of the brace takes any number of characters.
  induction n : t.length using Nat.strongRecOn generalizing t depth with
  | ind n ih =>
    subst n
    cases t with
    | nil => exact absurd h (by simp)
    | cons c r =>
      by_cases opens : c = '{'
      · subst opens
        rw [openBraces_open] at h
        obtain ⟨inner, behind, rfl, matched⟩ := ih r.length (by simp) (by omega : _ ≤ depth + 1) rfl
        rw [openBraces_append, matched.openBraces, openBraces_close] at h
        obtain ⟨inner', rest, rfl, matched'⟩ := ih behind.length (by simp; omega) h rfl
        exact ⟨'{' :: inner ++ '}' :: inner', rest, by simp, .pair matched matched'⟩
      by_cases closes : c = '}'
      · exact ⟨[], r, by rw [closes]; rfl, .nil⟩
      · have plain : BraceTag.isBrace c = false := by simp [BraceTag.isBrace, opens, closes]
        rw [openBraces_char plain] at h
        obtain ⟨inner, rest, rfl, matched⟩ := ih r.length (by simp) h rfl
        exact ⟨c :: inner, rest, rfl, .char plain matched⟩

/-- The braces of a text are closed if none is open behind it. -/
theorem closesBraces_iff : ClosesBraces t ↔ openBraces 0 t = 0 := by
  constructor
  · intro h
    induction n : t.length using Nat.strongRecOn generalizing t with
    | ind n ih =>
      subst n
      cases t with
      | nil => rfl
      | cons c r =>
        by_cases opens : c = '{'
        · subst opens
          obtain ⟨inner, rest, rfl, matched⟩ := h [] r rfl
          have behind : ClosesBraces rest := by
            refine ClosesBraces.right (s := '{' :: inner ++ ['}']) ?_
            simpa using h
          simpa [matched.openBraces] using ih rest.length (by simp; omega) behind rfl
        · have behind := ih r.length (by simp) (ClosesBraces.right (s := [c]) h) rfl
          rw [openBraces, if_neg opens]
          simpa using behind
  · rintro h front back rfl
    rw [openBraces_append, openBraces_open] at h
    have fewer : openBraces (openBraces 0 front + 1) back ≤ openBraces 0 front := by omega
    exact exists_matched fewer

instance (t : Text) : Decidable (ClosesBraces t) := decidable_of_iff _ closesBraces_iff.symm

/-! ## Steps of a line -/

/-- A step keeps the braces around its tag matched as they are. -/
theorem Step.openBraces (h : Step t u) (depth : Nat) : openBraces depth u = openBraces depth t := by
  cases h with
  | @mk tag before rest words t occurs render =>
    obtain ⟨complete, rfl⟩ := occurs
    have words := matched_of_braceless (complete.words_braceless render)
    simp [words.openBraces, (matched_source complete).openBraces]

theorem ClosesBraces.steps (h : ClosesBraces t) (steps : Steps t u) : ClosesBraces u := by
  rw [closesBraces_iff] at h ⊢
  induction steps with
  | refl => exact h
  | tail _ step ih => rw [step.openBraces, ih]

/-- No tag lies across the end of a text that closes its braces. -/
theorem ClosesBraces.apart (h : ClosesBraces s) (t : Text) : Apart s t := by
  rintro tag before rest ⟨complete, e⟩
  obtain ⟨inner, plain, source⟩ := complete.source_eq
  rw [source] at e
  simp only [List.cons_append, List.append_assoc, List.nil_append] at e
  rcases append_eq_split e with ⟨mid, rfl, e'⟩ | ⟨mid, rfl, rfl⟩
  · obtain ⟨between, behind, rfl, -⟩ := h before mid rfl
    rcases append_eq_split e'.symm with ⟨after, e'', rfl⟩ | ⟨after, rfl, -⟩
    · exact .inl ⟨after, ⟨complete, by simp [source, e'']⟩, rfl⟩
    · -- The tag would have the brace inside that closes its own.
      exact absurd (plain '}' (by simp)) (by decide)
  · exact .inr ⟨mid, rfl, complete, by simp [source]⟩

theorem Steps.ahead (h : Steps t u) (behind : Text) : Steps (t ++ behind) (u ++ behind) := by
  refine Relation.ReflTransGen.lift (· ++ behind) (fun a b step => ?_) _ _ h
  cases step with
  | @mk tag front rest words a occurs render =>
    obtain ⟨complete, rfl⟩ := occurs
    have step : Step (front ++ tag.source ++ rest ++ behind) (front ++ words ++ (rest ++ behind)) :=
      .mk ⟨complete, by simp⟩ render
    rwa [← List.append_assoc] at step

/-- Steps go on in each of two texts apart if the first closes its braces. -/
theorem Steps.split (closes : ClosesBraces s) (h : Steps (s ++ t) u) :
    ∃ v w, u = v ++ w ∧ Steps s v ∧ Steps t w := by
  induction h with
  | refl => exact ⟨s, t, rfl, .refl, .refl⟩
  | tail _ step ih =>
    obtain ⟨v, w, rfl, left, right⟩ := ih
    cases step with
    | @mk tag before rest words _ occurs render =>
      rcases (closes.steps left).apart w _ _ _ occurs with
        ⟨mid, inside, rfl⟩ | ⟨mid, rfl, inside⟩
      · exact ⟨before ++ words ++ mid, w, by simp, left.tail (.mk inside render), right⟩
      · exact ⟨v, mid ++ words ++ rest, by simp, left, right.tail (.mk inside render)⟩

/-! ## Passes -/

/-- The passes end with the text without tags that steps lead to. -/
theorem resolveAll_ok_iff : (resolveAll t).answer = .ok u ↔ Steps t u ∧ TagFree u := by
  refine ⟨(resolveAll_steps t).1 u, fun ⟨steps, free⟩ => ?_⟩
  cases h : (resolveAll t).answer with
  | ok v =>
    obtain ⟨steps', free'⟩ := (resolveAll_steps t).1 v h
    obtain ⟨w, hu, hv⟩ := steps.confluent steps'
    rw [← hu.eq_of_stuck fun _ => free.not_step, hv.eq_of_stuck fun _ => free'.not_step]
  | error failure =>
    obtain ⟨v, steps', fails⟩ := (resolveAll_steps t).2 failure h
    obtain ⟨w, hu, hv⟩ := steps.confluent steps'
    obtain rfl := hu.eq_of_stuck fun _ => free.not_step
    exact absurd (fails.steps hv) free.not_fails

/-- A text that closes its braces and what follows it are resolved apart. -/
theorem resolveAll_append (closes : ClosesBraces s) :
    (resolveAll (s ++ t)).answer = .ok u ↔
      ∃ v w, (resolveAll s).answer = .ok v ∧ (resolveAll t).answer = .ok w ∧ u = v ++ w := by
  simp only [resolveAll_ok_iff]
  constructor
  · rintro ⟨steps, free⟩
    obtain ⟨v, w, rfl, left, right⟩ := steps.split closes
    exact ⟨v, w, ⟨left, free.left⟩, ⟨right, free.right⟩, rfl⟩
  · rintro ⟨v, w, ⟨left, free⟩, ⟨right, free'⟩, rfl⟩
    exact ⟨(left.ahead t).trans (right.behind v), ((closes.steps left).apart w).tagFree free free'⟩

/-- The end of a line stays where it is. -/
theorem resolveAll_newline :
    (resolveAll ('\n' :: t)).answer = .ok u ↔
      ∃ w, (resolveAll t).answer = .ok w ∧ u = '\n' :: w := by
  have closes : ClosesBraces ['\n'] := by decide
  have alone : (resolveAll ['\n']).answer = .ok ['\n'] := by decide +kernel
  have := resolveAll_append (t := t) (u := u) closes
  simpa [alone] using this

/-! ## Announcements -/

theorem announceFrom_skip {last : Option Char} {seen r : Text} {c : Char}
    (h : announcement? (c :: r) = none ∨ last.any Text.isWord = true) :
    announceFrom last seen (c :: r) = announceFrom (some c) (c :: seen) r := by
  rw [announceFrom]
  split
  · rfl
  · rename_i found
    rw [found] at h
    rw [if_pos (by simpa using h)]

theorem announceFrom_found {last : Option Char} {seen r words rest : Text} {c : Char}
    (found : announcement? (c :: r) = some (words, rest)) (start : last.any Text.isWord = false) :
    announceFrom last seen (c :: r) = announceFrom (some '}') (words.reverseAux seen) rest := by
  rw [announceFrom]
  split
  · rename_i none
    rw [found] at none
    cases none
  · rename_i found'
    rw [found] at found'
    cases found'
    rw [if_neg (by simp [start])]

/-- A character is written as it is unless an announcement starts with it, and with it a word. -/
theorem announcement?_cases (last : Option Char) (c : Char) (r : Text) :
    (announcement? (c :: r) = none ∨ last.any Text.isWord = true) ∨
      ∃ words rest, announcement? (c :: r) = some (words, rest) ∧
        last.any Text.isWord = false := by
  cases found : announcement? (c :: r) with
  | none => exact .inl (.inl rfl)
  | some p =>
    cases start : last.any Text.isWord with
    | true => exact .inl (.inr rfl)
    | false => exact .inr ⟨p.1, p.2, rfl, rfl⟩

/-- What was written before does not matter to what follows. -/
theorem announceFrom_seen (last : Option Char) (seen t : Text) :
    announceFrom last seen t = seen.reverse ++ announceFrom last [] t := by
  -- The induction is on the length, since an announcement takes many characters at once.
  induction n : t.length using Nat.strongRecOn generalizing last seen t with
  | ind n ih =>
    subst n
    cases t with
    | nil => simp [announceFrom]
    | cons c r =>
      rcases announcement?_cases last c r with skip | ⟨words, rest, found, start⟩
      · rw [announceFrom_skip skip, announceFrom_skip skip, ih r.length (by simp) _ _ r rfl,
          ih r.length (by simp) _ [c] r rfl]
        simp
      · have shorter := length_lt_of_announcement? found
        rw [announceFrom_found found start, announceFrom_found found start,
          ih _ shorter _ _ rest rfl, ih _ shorter _ (words.reverseAux []) rest rfl]
        simp [List.reverseAux_eq]

/-- Of what stands in front it only matters whether a word goes on. -/
theorem announceFrom_last {last last' : Option Char}
    (h : last.any Text.isWord = last'.any Text.isWord) (seen t : Text) :
    announceFrom last seen t = announceFrom last' seen t := by
  cases t with
  | nil => simp [announceFrom]
  | cons c r =>
    rcases announcement?_cases last c r with skip | ⟨words, rest, found, start⟩
    · rw [announceFrom_skip skip, announceFrom_skip (h ▸ skip)]
    · rw [announceFrom_found found start, announceFrom_found found (h ▸ start)]

theorem isPrefixOf_announcementTail (r b : Text) :
    announcementTail.isPrefixOf (r ++ '\n' :: b) = announcementTail.isPrefixOf r := by
  rw [Bool.eq_iff_iff, List.isPrefixOf_iff_prefix, List.isPrefixOf_iff_prefix]
  refine ⟨fun ⟨rest, e⟩ => ?_, fun h => h.trans (List.prefix_append _ _)⟩
  rcases append_eq_split e with ⟨mid, tail, -⟩ | ⟨mid, rfl, -⟩
  · have newline : '\n' ∈ announcementTail := by simp [tail]
    exact absurd newline (by decide)
  · exact List.prefix_append _ _

/-- An announcement ends on its line. -/
theorem announcement?_line (c : Char) (r b : Text) :
    announcement? (c :: r ++ '\n' :: b) =
      (announcement? (c :: r)).map fun (words, rest) => (words, rest ++ '\n' :: b) := by
  rw [List.cons_append, announcement?, announcement?, isPrefixOf_announcementTail]
  split
  · rename_i tail
    have short := (List.isPrefixOf_iff_prefix.1 tail).length_le
    rw [List.drop_append_of_le_length short]
    split
    · rfl
    · split <;> rfl
  · rfl

/-- The announcements of two lines are spelled out apart. -/
theorem announceFrom_line (last : Option Char) (seen a b : Text) :
    announceFrom last seen (a ++ '\n' :: b) = announceFrom last seen a ++ '\n' :: announce b := by
  induction n : a.length using Nat.strongRecOn generalizing last seen a with
  | ind n ih =>
    subst n
    cases a with
    | nil =>
      -- No announcement begins at the end of the line, and no word goes on behind it.
      have skip : announcement? ('\n' :: b) = none := by simp [announcement?]
      have start : (some '\n').any Text.isWord = (none : Option Char).any Text.isWord := by
        decide +kernel
      rw [List.nil_append, announceFrom_skip (.inl skip), announceFrom_seen,
        announceFrom_last start, announceFrom, ← announce]
      simp
    | cons c r =>
      have line := announcement?_line c r b
      rcases announcement?_cases last c r with skip | ⟨words, rest, found, start⟩
      · have skip' : announcement? (c :: (r ++ '\n' :: b)) = none ∨ last.any Text.isWord = true :=
          skip.imp_left fun none => by simpa [none] using line
        rw [List.cons_append, announceFrom_skip skip', announceFrom_skip skip]
        exact ih r.length (by simp) _ _ r rfl
      · rw [List.cons_append, announceFrom_found (by simpa [found] using line) start,
          announceFrom_found found start]
        exact ih _ (length_lt_of_announcement? found) _ _ rest rfl

/-- Two lines are normalised apart. -/
theorem normalise_line (a b : Text) :
    normalise (a ++ '\n' :: b) = normalise a ++ '\n' :: normalise b := by
  have plain : plain (a ++ '\n' :: b) = plain a ++ '\n' :: plain b := by
    simp [Brace.plain, plainChar]
  rw [normalise, plain]
  exact announceFrom_line none [] (Brace.plain a) (Brace.plain b)

/-! ## Braces of a normalised text -/

theorem openBraces_braceless {s : Text} (h : Braceless s) (depth : Nat) :
    openBraces depth s = depth :=
  (matched_of_braceless h).openBraces depth

/-- Typography leaves the braces as they are. -/
theorem openBraces_plain (depth : Nat) (t : Text) :
    openBraces depth (plain t) = openBraces depth t := by
  induction t generalizing depth with
  | nil => rfl
  | cons c t ih =>
    have first : openBraces depth (plainChar c) = openBraces depth [c] := by
      by_cases special : c ∈ typography
      · simp only [typography, List.mem_cons, List.not_mem_nil, or_false] at special
        rcases special with rfl | rfl | rfl | rfl <;> rfl
      · rw [plainChar_of_not_mem special]
    show openBraces depth (plainChar c ++ plain t) = openBraces depth ([c] ++ t)
    rw [openBraces_append, openBraces_append, first, ih]

theorem matched_announcementTail : Matched announcementTail :=
  show Matched ('s' :: ' ' :: ('{' :: "@hitYourSpellAttack".toList ++ '}' :: [])) from
    .char (by decide) (.char (by decide) (.pair (matched_of_braceless (by decide)) .nil))

theorem announcement?_eq_some {words rest : Text} (h : announcement? t = some (words, rest)) :
    ∃ c, BraceTag.isBrace c = false ∧ t = c :: announcementTail ++ rest := by
  unfold announcement? at h
  split at h
  · cases h
  · rename_i c r
    split at h
    · rename_i tail
      obtain ⟨behind, rfl⟩ := List.isPrefixOf_iff_prefix.1 tail
      rw [List.drop_left] at h
      split at h
      · rename_i letter
        cases h
        exact ⟨c, by rw [letter]; decide, rfl⟩
      · split at h
        · rename_i letter
          cases h
          exact ⟨c, by rw [letter]; decide, rfl⟩
        · cases h
    · cases h

/-- An announcement that is spelled out takes matched braces away. -/
theorem openBraces_announcement? {words rest : Text} (h : announcement? t = some (words, rest))
    (depth : Nat) : openBraces depth t = openBraces depth (words ++ rest) := by
  obtain ⟨own, -⟩ := announcement?_drawn h
  obtain ⟨c, plain, rfl⟩ := announcement?_eq_some h
  rw [openBraces_append, openBraces_append, openBraces_char plain,
    matched_announcementTail.openBraces, openBraces_braceless (.of_drawn .nil own)]

theorem openBraces_announceFrom (depth : Nat) (last : Option Char) (seen t : Text) :
    openBraces depth (announceFrom last seen t) = openBraces depth (seen.reverse ++ t) := by
  fun_induction announceFrom last seen t with
  | case1 last seen => rw [List.append_nil]
  | case2 last seen c r _ ih => rw [ih]; simp
  | case3 last seen c r words rest _ _ _ ih => rw [ih]; simp
  | case4 last seen c r words rest found _ _ ih =>
    rw [ih, openBraces_append, openBraces_append, openBraces_announcement? found]
    simp [List.reverseAux_eq]

theorem ClosesBraces.normalise (h : ClosesBraces t) : ClosesBraces (normalise t) := by
  rw [closesBraces_iff] at h ⊢
  rw [Brace.normalise, announce, openBraces_announceFrom, List.reverse_nil, List.nil_append,
    openBraces_plain, h]

/-! ## Lines -/

/-- A line that closes its braces and what follows it are expanded apart: both together if each of
them is, and to the two results on lines of their own. -/
theorem expand_lines {a : Text} (closes : ClosesBraces a) (b out : Text) :
    (expand (a ++ '\n' :: b)).answer = .ok out ↔
      ∃ x y, (expand a).answer = .ok x ∧ (expand b).answer = .ok y ∧ out = x ++ '\n' :: y := by
  rw [expand, expand, expand, normalise_line, resolveAll_append closes.normalise]
  simp only [resolveAll_newline]
  constructor
  · rintro ⟨x, _, left, ⟨y, right, rfl⟩, rfl⟩
    exact ⟨x, y, left, right, rfl⟩
  · rintro ⟨x, y, left, right, rfl⟩
    exact ⟨x, '\n' :: y, left, ⟨y, right, rfl⟩, rfl⟩

/-- The first line has a tag with a tag in it and a closing brace too many, and its tags are
resolved in two passes; the second line begins with an announcement and ends with an open brace. -/
theorem expand_lines_two :
    ClosesBraces ("{@creature a {@dice 1d4|x}} ".toList ++ ['}']) ∧
    (expand ("{@creature a {@dice 1d4|x}} ".toList ++ ['}'] ++
        '\n' :: ("ms {@hitYourSpellAttack} ".toList ++ ['{', '@']))).answer =
      .ok ("a 1d4 (x) ".toList ++ ['}'] ++
        '\n' :: ("Melee spell attack: your spell attack modifier ".toList ++ ['{', '@'])) := by
  have closes : ClosesBraces ("{@creature a {@dice 1d4|x}} ".toList ++ ['}']) := by decide +kernel
  refine ⟨closes, (expand_lines closes ("ms {@hitYourSpellAttack} ".toList ++ ['{', '@']) _).2
    ⟨"a 1d4 (x) ".toList ++ ['}'],
      "Melee spell attack: your spell attack modifier ".toList ++ ['{', '@'], ?_, ?_, rfl⟩⟩
  · decide +kernel
  · decide +kernel

end RulesText.Brace
