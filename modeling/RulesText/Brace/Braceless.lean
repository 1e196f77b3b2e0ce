/-
The words that a brace tag stands for are drawn from its arguments, and so they hold no brace. The
main statement is `render_braceless`; it rests on the arguments of a tag that was read, which hold
none.
-/
import RulesText.Brace.Tag
import RulesText.Text.Drawn

namespace RulesText

/-- A text without braces. -/
def Braceless (t : Text) : Prop := ∀ c ∈ t, BraceTag.isBrace c = false

instance (t : Text) : Decidable (Braceless t) :=
  decidable_of_iff (t.all (!BraceTag.isBrace ·) = true) (by simp [Braceless])

namespace Braceless

theorem nil : Braceless [] := by simp [Braceless]

theorem append {s t : Text} (hs : Braceless s) (ht : Braceless t) : Braceless (s ++ t) := by
  intro c hc
  rcases List.mem_append.1 hc with h | h
  · exact hs c h
  · exact ht c h

theorem cons {c : Char} {t : Text} (hc : BraceTag.isBrace c = false) (ht : Braceless t) :
    Braceless (c :: t) := by
  intro d hd
  rcases List.mem_cons.1 hd with rfl | h
  · exact hc
  · exact ht d h

theorem of_subset {s t : Text} (ht : Braceless t) (h : ∀ c ∈ s, c ∈ t) : Braceless s :=
  fun c hc => ht c (h c hc)

/-- No word of the library's own has a brace. -/
theorem of_drawn {s t : Text} (hs : Braceless s) (h : Text.DrawnFrom s t) : Braceless t := by
  intro c hc
  rcases h c hc with h | h
  · exact hs c h
  · simp only [BraceTag.isBrace, Bool.or_eq_false_iff, decide_eq_false_iff_not]
    constructor <;> rintro rfl <;> exact absurd h (by decide)

theorem count_eq_zero {t : Text} (ht : Braceless t) : t.count '{' = 0 :=
  List.count_eq_zero.2 fun h => by simpa [BraceTag.isBrace] using ht _ h

end Braceless

/-! ## Attacks -/

namespace Attack

theorem reach_drawn (r : Reach) : Text.DrawnFrom [] r.word := by
  cases r <;> exact .of_written (by decide)

theorem means_drawn (m : Means) : Text.DrawnFrom [] m.word := by
  cases m <;> exact .of_written (by decide)

theorem phrase_drawn (attacks : List Attack) (means : Means) :
    Text.DrawnFrom [] (phrase attacks means) := by
  unfold phrase
  have hor : Text.DrawnFrom [] " or ".toList := .of_written (by decide)
  split
  · refine (Text.DrawnFrom.intercalate hor fun t ht => ?_).append (.cons rfl (means_drawn means))
    obtain ⟨a, -, rfl⟩ := List.mem_map.1 ht
    exact reach_drawn a.reach
  · refine Text.DrawnFrom.intercalate hor fun t ht => ?_
    obtain ⟨a, -, rfl⟩ := List.mem_map.1 ht
    exact (reach_drawn a.reach).append (.cons rfl (means_drawn a.means))

theorem capitalised_drawn {t : Text} (ht : Text.DrawnFrom [] t) :
    Text.DrawnFrom [] (capitalised t) := by
  cases t with
  | nil => exact ht
  | cons c r =>
    have first : Text.isWritten c = true := by simpa using ht c List.mem_cons_self
    exact .cons (Text.isWritten_toUpper first) ht.of_cons.2

/-- The words for attacks are the library's own. -/
theorem render_drawn {t text : Text} (h : render t = .ok text) : Text.DrawnFrom [] text := by
  unfold render at h
  split at h
  · cases h
  · split at h
    · cases h
    · cases h
      exact (capitalised_drawn (phrase_drawn _ _)).append (.of_written (by decide))

end Attack

/-! ## Tags -/

namespace BraceTag

theorem tail_braceless {t tail rest : Text} (h : tail? t = some (tail, rest)) : Braceless tail := by
  unfold tail? at h
  split at h
  · cases h
  · rename_i c r
    split at h
    · cases h; exact .nil
    · split at h
      · split at h
        · cases h
          intro d hd
          simpa using List.all_eq_true.1 List.all_takeWhile d hd
        · cases h
      · cases h

theorem arguments_braceless {t rest : Text} {tag : BraceTag} (h : read? t = some (tag, rest)) :
    Braceless tag.arguments := by
  unfold read? at h
  split at h
  · split at h
    · cases h
    · obtain ⟨⟨tail, rest'⟩, htail, htag⟩ := Option.map_eq_some_iff.1 h
      cases htag
      exact (tail_braceless htail).of_subset fun c hc => Text.mem_of_mem_trim hc
  · cases h

theorem renderUse_drawn {u : Use} {arguments text : Text} (h : renderUse u arguments = .ok text) :
    Text.DrawnFrom arguments text := by
  have all := Text.DrawnFrom.refl arguments
  have field := Text.DrawnFrom.field '|' arguments
  unfold renderUse at h
  cases u <;> simp only at h
  case attack => exact .trans .nil (Attack.render_drawn h)
  all_goals cases h
  case onHit => exact .of_written (by decide)
  case hitBonus => exact .cons rfl all
  case difficulty => exact .append (.of_written (by decide)) all
  case recharge =>
    split
    · exact .of_written (by decide)
    · exact .append (.append (.of_written (by decide)) all) (.of_written (by decide))
  case spellAttack => exact .of_written (by decide)
  case chance =>
    split
    · exact field 1
    · exact field 0
    · exact (field 0).append (.of_written (by decide))
  case dice =>
    split
    · exact field 0
    · exact (((field 0).append (.of_written (by decide))).append (field 1)).append
        (.of_written (by decide))
  case table => exact (field 0).append (.of_written (by decide))
  case link =>
    split
    · exact field 0
    · exact field 2
  case label => exact field 0

/-- The words that a tag stands for are drawn from what follows its name. -/
theorem render_drawn {text : Text} {tag : BraceTag} (h : tag.render = .ok text) :
    Text.DrawnFrom tag.tail text :=
  .trans (.of_subset fun _ => Text.mem_of_mem_trim) (renderUse_drawn h)

/-- The words that a tag stands for hold no brace. -/
theorem render_braceless {t rest text : Text} {tag : BraceTag} (hread : read? t = some (tag, rest))
    (h : tag.render = .ok text) : Braceless text :=
  (arguments_braceless hread).of_drawn (renderUse_drawn h)

end BraceTag

end RulesText
