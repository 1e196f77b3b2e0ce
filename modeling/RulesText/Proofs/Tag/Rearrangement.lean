/-
Tags whose parameters are written in another order. What a check or a template looks up does not
depend on where the segments of other keys stand, so as long as the segments of each key keep their
order the words stay the same (`render_rearranged`).
-/
import RulesText.Proofs.Tag.Parameters
import RulesText.Tag.Basic

namespace RulesText

/-! ## Rearranged segments -/

namespace Parameters

/-- Whether two segments set the same key. -/
def sameKey (t u : Text) : Bool := (segment u).1 = (segment t).1

/-- The same segments in another order, which keeps the order of those with the same key. -/
structure Rearranged (ts us : List Text) : Prop where
  perm : ts.Perm us
  stable : ∀ t ∈ ts, ts.filter (sameKey t) = us.filter (sameKey t)

variable {ts us : List Text}

theorem Rearranged.filter_key (h : Rearranged ts us) (key : Text) :
    ts.filter (fun t => (segment t).1 = key) = us.filter fun t => (segment t).1 = key := by
  by_cases known : ∃ t ∈ ts, (segment t).1 = key
  · obtain ⟨t, mem, rfl⟩ := known
    exact h.stable t mem
  · have absent : ∀ t ∈ ts, (segment t).1 ≠ key := fun t mem same => known ⟨t, mem, same⟩
    rw [List.filter_eq_nil_iff.2 fun t mem => by simpa using absent t mem,
      List.filter_eq_nil_iff.2 fun t mem => by simpa using absent t (h.perm.mem_iff.2 mem)]

/-- Every key has the same value in both orders. -/
theorem Rearranged.get? (h : Rearranged ts us) (key : Text) :
    (gather ts).get? key = (gather us).get? key := by
  rw [get?_gather, get?_gather, h.filter_key]

end Parameters

open Parameters (Rearranged)

/-! ## What is looked up -/

section Lookup

variable {p q : Parameters} (h : ∀ key, p.get? key = q.get? key)

include h

theorem Check.ofParameters?_congr : ofParameters? p = ofParameters? q := by
  simp only [ofParameters?, Parameters.contains_eq_isSome, h]

theorem Template.shape?_congr : shape? p = shape? q := by
  have flags : p.contains = q.contains := funext fun key => by
    rw [Parameters.contains_eq_isSome, Parameters.contains_eq_isSome, h]
  simp only [shape?, Parameters.filled?, flags, h]

end Lookup

variable {body body' : Text}

theorem Check.render_congr (h : ∀ key, (Parameters.parse body).get? key =
    (Parameters.parse body').get? key) : render body = render body' := by
  simp only [render, ofParameters?_congr h, h]

theorem Template.render_congr (h : ∀ key, (Parameters.parse body).get? key =
    (Parameters.parse body').get? key) : render body = render body' := by
  simp only [render, shape?_congr h, Parameters.filled?, h]

/-- Checks and templates are rendered alike, or fail alike, if the segments of their bodies are the
same up to an order that leaves the segments of each key in theirs. -/
theorem Tag.render_rearranged
    (h : Rearranged (Text.fields '|' body) (Text.fields '|' body')) (rank : Rank) :
    Tag.render rank ⟨Family.check.name, body⟩ = Tag.render rank ⟨Family.check.name, body'⟩ ∧
    Tag.render rank ⟨Family.template.name, body⟩ =
      Tag.render rank ⟨Family.template.name, body'⟩ := by
  have same : ∀ key, (Parameters.parse body).get? key = (Parameters.parse body').get? key := h.get?
  simp only [render, family?, Family.ofName?_name, Check.render_congr same,
    Template.render_congr same, and_self]

/-- The flag that comes first among the checks or shapes wins over the others and over a type, and of
two values the later counts, wherever they stand. -/
theorem Tag.arcana_burst_rearranged :
    Rearranged (Text.fields '|' "dc:3|distance:5|type:will|burst|dc:5|arcana|distance:20".toList)
      (Text.fields '|' "arcana|distance:5|distance:20|dc:3|burst|dc:5|type:will".toList) ∧
    Tag.render {} ⟨Family.check.name,
        "dc:3|distance:5|type:will|burst|dc:5|arcana|distance:20".toList⟩ =
      Tag.render {} ⟨Family.check.name,
        "arcana|distance:5|distance:20|dc:3|burst|dc:5|type:will".toList⟩ ∧
    Tag.render {} ⟨Family.template.name,
        "dc:3|distance:5|type:will|burst|dc:5|arcana|distance:20".toList⟩ =
      Tag.render {} ⟨Family.template.name,
        "arcana|distance:5|distance:20|dc:3|burst|dc:5|type:will".toList⟩ := by
  have moved : Rearranged
      (Text.fields '|' "dc:3|distance:5|type:will|burst|dc:5|arcana|distance:20".toList)
      (Text.fields '|' "arcana|distance:5|distance:20|dc:3|burst|dc:5|type:will".toList) :=
    ⟨by decide, by decide⟩
  exact ⟨moved, render_rearranged moved {}⟩

end RulesText
