/-
Where the characters of a rendered tag come from: from the body of the tag, or they are the
library's own (`Tag.render_drawn`).
-/
import RulesText.Proofs.Roll.Provenance
import RulesText.Proofs.Tag.Parameters
import RulesText.Tag.Basic

namespace RulesText

open Text (DrawnFrom)

/-! ## Parameters -/

namespace Parameters

/-- The values of parameters are parts of the body that they are read from. -/
theorem get?_drawn {body key value : Text} (h : (parse body).get? key = some value) :
    DrawnFrom body value := by
  obtain ⟨e, found, rfl⟩ := Option.map_eq_some_iff.1 h
  obtain ⟨t, ht, rfl⟩ := mem_entries_gather (List.mem_of_find?_eq_some found)
  refine .of_subset fun c hc => Text.mem_of_mem_fields ht ?_
  exact (List.dropWhile_sublist _).subset (List.mem_of_mem_drop hc)

theorem filled?_drawn {body key value : Text} (h : (parse body).filled? key = some value) :
    DrawnFrom body value :=
  get?_drawn (Option.filter_eq_some_iff.1 h).1

end Parameters

/-! ## Families -/

theorem Tag.linkName_drawn {body text : Text} (h : linkName body = .ok text) :
    DrawnFrom body text := by
  unfold linkName at h
  dsimp only at h
  split at h
  · cases h
  · cases h
    refine .of_subset fun c hc => ?_
    exact List.mem_reverse.1 ((List.takeWhile_sublist _).subset (List.mem_reverse.1 hc))

theorem Check.label_drawn (source : Text) (check : Check) : DrawnFrom source check.label := by
  rcases check with _ | save | skill
  · exact .of_written (by decide)
  · cases save <;> exact .of_written (by decide)
  · cases skill <;> exact .of_written (by decide)

theorem Check.render_drawn {body text : Text} (h : render body = .ok text) :
    DrawnFrom body text := by
  unfold render at h
  dsimp only at h
  split at h
  · cases h
  · rename_i check _
    split at h
    · cases h
      exact check.label_drawn body
    · rename_i dc found
      cases h
      exact (DrawnFrom.append (.of_written (by decide)) (Parameters.get?_drawn found)).append
        (.cons rfl (check.label_drawn body))

theorem Template.shape?_drawn {body shape : Text}
    (h : shape? (Parameters.parse body) = some shape) : DrawnFrom body shape := by
  rcases Option.or_eq_some_iff.1 h with flag | ⟨-, type⟩
  · have known : ∀ shape ∈ shapes, shape.all Text.isWritten = true := by decide
    exact .of_written (known shape (List.mem_of_find?_eq_some flag))
  · exact Parameters.filled?_drawn type

theorem Template.render_drawn {body text : Text} (h : render body = .ok text) :
    DrawnFrom body text := by
  unfold render at h
  dsimp only at h
  split at h
  · cases h
  · rename_i shape found
    split at h
    · cases h
    · rename_i distance filled
      cases h
      exact ((Parameters.filled?_drawn filled).append (.of_written (by decide))).append
        (shape?_drawn found)

/-! ## Tags -/

/-- Whatever the family of a tag, its rendering is drawn from its body. -/
theorem Tag.render_drawn {rank : Rank} {tag : Tag} {text : Text}
    (h : (tag.render rank).answer = .ok text) : DrawnFrom tag.body text := by
  unfold render at h
  split at h
  · cases h
  · exact linkName_drawn ((Logged.answer_mapError_ok (x := .ofExcept (linkName tag.body))).1 h)
  · have part : DrawnFrom tag.body (roll tag.body) :=
      .of_subset fun c hc => (List.takeWhile_sublist _).subset hc
    exact part.trans (Roll.evaluate_drawn (Logged.answer_mapError_ok.1 h))
  · exact Check.render_drawn
      ((Logged.answer_mapError_ok (x := .ofExcept (Check.render tag.body))).1 h)
  · exact Template.render_drawn
      ((Logged.answer_mapError_ok (x := .ofExcept (Template.render tag.body))).1 h)

end RulesText
