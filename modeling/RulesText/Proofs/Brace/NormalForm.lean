/-
Expanding a brace record twice. The words of a tag are drawn from its arguments, so no step brings
back a character that the typography has replaced; and no announcement is left where no tag is. So
the result of an expansion is left alone by all that an expansion does (`expand_normal_form`).
-/
import RulesText.Proofs.Brace.Passes

namespace RulesText.Brace

open Text (DrawnFrom)

variable {t u : Text}

/-! ## Typography -/

/-- The characters that are written in ASCII: the dashes, the minus sign and that of
multiplication. -/
def typography : Text := ['\u2014', '\u2013', '\u2212', '\u00d7']

theorem plainChar_of_mem {c : Char} (h : c ∈ typography) :
    ∀ d ∈ plainChar c, d ∉ typography := by
  simp only [typography, List.mem_cons, List.not_mem_nil, or_false] at h
  rcases h with rfl | rfl | rfl | rfl <;> simp [plainChar, typography]

theorem plainChar_of_not_mem {c : Char} (h : c ∉ typography) : plainChar c = [c] := by
  simp only [typography, List.mem_cons, List.not_mem_nil, or_false, not_or] at h
  obtain ⟨long, short, minus, times⟩ := h
  simp [plainChar, long, short, minus, times]

/-- None of the characters is in the library's own words. -/
theorem isWritten_of_mem {c : Char} (h : c ∈ typography) : Text.isWritten c = false := by
  have other : typography.all (!Text.isWritten ·) = true := by decide
  simpa using List.all_eq_true.1 other c h

theorem not_mem_plain {c : Char} (h : c ∈ typography) (t : Text) : c ∉ plain t := by
  intro mem
  obtain ⟨d, -, hc⟩ := List.mem_flatMap.1 mem
  by_cases hd : d ∈ typography
  · exact plainChar_of_mem hd c hc h
  · rw [plainChar_of_not_mem hd, List.mem_singleton] at hc
    exact hd (hc ▸ h)

theorem plain_of_not_mem (h : ∀ c ∈ typography, c ∉ t) : plain t = t := by
  induction t with
  | nil => rfl
  | cons c t ih =>
    have first : c ∉ typography := fun mem => h c mem List.mem_cons_self
    have rest : plain t = t := ih fun d hd mem => h d hd (List.mem_cons_of_mem _ mem)
    show plainChar c ++ plain t = c :: t
    rw [plainChar_of_not_mem first, rest]
    rfl

/-! ## Announcements -/

theorem announcement?_drawn {words rest : Text} (h : announcement? t = some (words, rest)) :
    DrawnFrom [] words ∧ ∀ c ∈ rest, c ∈ t := by
  unfold announcement? at h
  split at h
  · cases h
  · rename_i c r
    have behind : ∀ d ∈ r.drop announcementTail.length, d ∈ c :: r := fun d hd =>
      List.mem_cons_of_mem _ (List.mem_of_mem_drop hd)
    split at h
    · split at h
      · cases h
        exact ⟨.of_written (by decide), behind⟩
      · split at h
        · cases h
          exact ⟨.of_written (by decide), behind⟩
        · cases h
    · cases h

theorem announceFrom_drawn {source : Text} (last : Option Char) {seen : Text}
    (before : DrawnFrom source seen) (h : DrawnFrom source t) :
    DrawnFrom source (announceFrom last seen t) := by
  fun_induction announceFrom last seen t with
  | case1 last seen => exact before.of_mem fun _ => List.mem_reverse.1
  | case2 last seen c r none ih =>
    obtain ⟨first, rest⟩ := h.of_cons
    exact ih (first.append before) rest
  | case3 last seen c r words rest found _ word ih =>
    obtain ⟨first, rest⟩ := h.of_cons
    exact ih (first.append before) rest
  | case4 last seen c r words rest found _ word ih =>
    obtain ⟨own, behind⟩ := announcement?_drawn found
    refine ih ?_ (h.of_mem behind)
    rw [List.reverseAux_eq]
    exact .append ((DrawnFrom.trans .nil own).of_mem fun _ => List.mem_reverse.1) before

/-- Where a spell attack is announced a tag stands. -/
theorem announcement?_of_tagFree (free : TagFree t) : announcement? t = none := by
  unfold announcement?
  split
  · rfl
  · rename_i c r
    split
    · rename_i h
      obtain ⟨rest, rfl⟩ := List.isPrefixOf_iff_prefix.1 h
      have complete : BraceTag.Complete ⟨"hitYourSpellAttack".toList, []⟩ := by decide
      exact absurd ⟨complete, rfl⟩ (free _ (c :: "s ".toList) rest)
    · rfl

theorem announceFrom_of_tagFree (last : Option Char) (seen : Text) (free : TagFree t) :
    announceFrom last seen t = seen.reverse ++ t := by
  fun_induction announceFrom last seen t with
  | case1 last seen => rw [List.append_nil]
  | case2 last seen c r _ ih =>
    rw [ih (TagFree.right (s := [c]) free), List.reverse_cons, List.append_assoc]
    rfl
  | case3 last seen c r words rest found _ word ih =>
    rw [announcement?_of_tagFree free] at found
    cases found
  | case4 last seen c r words rest found _ word ih =>
    rw [announcement?_of_tagFree free] at found
    cases found

/-! ## Steps -/

/-- A step brings in nothing but characters of the text and of the library's own words. -/
theorem Step.drawn (h : Step t u) : DrawnFrom t u := by
  cases h with
  | @mk tag before rest words t occurs render =>
    obtain ⟨-, rfl⟩ := occurs
    have tail : DrawnFrom (before ++ tag.source ++ rest) tag.tail :=
      .of_subset fun c hc => by simp [BraceTag.source, hc]
    refine .append (.append (.of_subset ?_) (tail.trans (BraceTag.render_drawn render)))
      (.of_subset ?_)
    · intro c hc
      simp [hc]
    · intro c hc
      simp [hc]

theorem Steps.drawn (h : Steps t u) : DrawnFrom t u := by
  induction h with
  | refl => exact .refl t
  | tail _ step ih => exact ih.trans step.drawn

/-! ## Normal form -/

theorem resolveAll_of_tagFree (free : TagFree t) : resolveAll t = pure t := by
  rw [resolveAll, dif_pos (nextTag_eq_none_iff.2 free)]

/-- The text of an expanded record is in normal form: it has none of the characters that are written
in ASCII, no complete tag stands in it, and it is expanded to itself. -/
theorem expand_normal_form {out : Text} (h : (expand t).answer = .ok out) :
    (∀ c ∈ typography, c ∉ out) ∧ TagFree out ∧ expand out = pure out := by
  obtain ⟨steps, free⟩ := (resolveAll_steps (normalise t)).1 out h
  have normalised : DrawnFrom (plain t) (normalise t) := announceFrom_drawn none .nil (.refl _)
  have plain_out : ∀ c ∈ typography, c ∉ out := fun c hc =>
    (normalised.trans steps.drawn).not_mem (not_mem_plain hc t) (isWritten_of_mem hc)
  refine ⟨plain_out, free, ?_⟩
  rw [expand, normalise, plain_of_not_mem plain_out, announce, announceFrom_of_tagFree none [] free]
  exact resolveAll_of_tagFree free

/-- The dash between two dice leaves an announced attack as it is, and the tag behind it goes. -/
theorem spell_attack_normal :
    (expand "ms {@hitYourSpellAttack}, {@dice 1d4|2—3}".toList).answer =
      .ok "Melee spell attack: your spell attack modifier, 1d4 (2 - 3)".toList ∧
    TagFree "Melee spell attack: your spell attack modifier, 1d4 (2 - 3)".toList ∧
    expand "Melee spell attack: your spell attack modifier, 1d4 (2 - 3)".toList =
      pure "Melee spell attack: your spell attack modifier, 1d4 (2 - 3)".toList := by
  have out : (expand "ms {@hitYourSpellAttack}, {@dice 1d4|2—3}".toList).answer =
      .ok "Melee spell attack: your spell attack modifier, 1d4 (2 - 3)".toList := by
    decide +kernel
  exact ⟨out, (expand_normal_form out).2⟩

end RulesText.Brace
