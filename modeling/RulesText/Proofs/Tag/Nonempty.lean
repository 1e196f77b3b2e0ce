/-
Tags are not rendered to nothing. Numerals have digits, atoms have characters, and no operator loses
the text of both its operands; so every term of a roll is written out as some text
(`evaluate_ne_nil`), and the other families have words of their own (`Tag.render_ne_nil`).
-/
import RulesText.Proofs.Roll.Provenance
import RulesText.Tag.Basic

namespace RulesText

/-! ## Numbers -/

theorem Number.Decimal.text_ne_nil (d : Decimal) : d.text ≠ [] := by
  rcases text_cases d with ⟨-, e⟩ | ⟨-, integral, fraction, e, -⟩
  · rw [e]
    exact List.append_ne_nil_of_left_ne_nil (numeral_ne_nil _) _
  · rw [e]
    exact List.append_ne_nil_of_right_ne_nil _ (List.cons_ne_nil _ _)

theorem Number.exactText_ne_nil (x : Float) : exactText x ≠ [] := by
  have magnitude (m : Nat) (d : Decimal) : (if m = 0 then ['0'] else d.text) ≠ [] := by
    split
    · exact List.cons_ne_nil _ _
    · exact d.text_ne_nil
  unfold exactText
  split
  · decide
  · split <;> decide
  · dsimp only
    split
    · exact List.cons_ne_nil _ _
    · exact magnitude _ _

namespace Roll

/-! ## Values -/

theorem Value.number_ne_nil (x : Float) : (Value.number x).text ≠ [] := Number.exactText_ne_nil _

/-- What an operator makes of two operands with a text has a text: that of one operand if the other
gives way to it, else both with the sign between them. -/
theorem Operator.apply_ne_nil {op : Operator} {l r v : Value} (hl : l.text ≠ [])
    (hr : r.text ≠ []) (h : (op.apply l r).answer = .ok v) : v.text ≠ [] := by
  unfold apply at h
  split at h
  · cases h
  · split at h
    · cases h
      exact Value.number_ne_nil _
    · split at h
      · rw [identity_answer] at h
        cases h
        exact hr
      · split at h
        · rw [identity_answer] at h
          cases h
          exact hl
        · cases h
          exact List.append_ne_nil_of_left_ne_nil hl _

/-! ## Expressions -/

/-- Whatever the rank is, the expression has no value without a text. -/
def Tree.Worded (t : Tree) : Prop := ∀ rank v, t.HasValue rank v → v.text ≠ []

/-- Expressions that are made of atoms have a text. -/
theorem builds_worded : Grammar.Builds Token.IsAtom Tree.Worded where
  leaf {a} _ atom rank v h := by
    cases literal : Number.Decimal.ofLiteral? a with
    | some d =>
      rw [Tree.leaf, literal] at h
      cases h
      exact Value.number_ne_nil _
    | none =>
      rw [Tree.leaf, literal] at h
      cases h with
      | reference _ => exact Value.number_ne_nil _
      | name _ => exact atom.1
  binary op _ _ hl hr rank v h := by
    cases h with
    | binary l r applied => exact Operator.apply_ne_nil (hl rank _ l) (hr rank _ r) applied
  call _ hts rank v h := by
    cases h with
    | ceil _ | floor _ | max _ _ => exact Value.number_ne_nil _
    | @gte _ _ x y _ _ =>
      show (if decide (y ≤ x) then _ else _) ≠ []
      split <;> decide
    | yes no _ h => exact hts _ (by simp) rank v h
    | no yes _ h => exact hts _ (by simp) rank v h
  dice _ atom ht rank v h := by
    cases h with
    | dice _ count _ => exact List.append_ne_nil_of_right_ne_nil _ atom.1

/-! ## Rolls -/

/-- A roll has at least one term. -/
theorem Grammar.Damage.ne_nil {w : List Lexeme} {ps : List (Tree × Option Text)}
    (h : Damage w ps) : ps ≠ [] := by
  cases h <;> simp

theorem Token.isAtom_of_lexemes {roll : Text} {w : List Lexeme} (hw : lexemes roll = some w)
    {a : Text} (ha : .atom a ∈ w) : IsAtom a := by
  obtain ⟨tokens, scan, rfl⟩ := lexemes_eq_some_iff.1 hw
  obtain ⟨t, mem, e⟩ := List.mem_map.1 ha
  exact isAtom_of_scan scan mem e

/-- A damage type may leave no label, but the value in front of it stays. -/
theorem Value.labelled_ne_nil {v : Value} (hv : v.text ≠ []) (damageType : Option Text) :
    v.labelled damageType ≠ [] := by
  unfold labelled
  dsimp only
  split
  · exact hv
  · exact List.append_ne_nil_of_left_ne_nil hv _

theorem intercalate_ne_nil (sep : Text) {ts : List Text} (some_text : ts ≠ [])
    (texts : ∀ t ∈ ts, t ≠ []) : sep.intercalate ts ≠ [] := by
  obtain ⟨t, ts, rfl⟩ := List.exists_cons_of_ne_nil some_text
  have first : t ≠ [] := texts t List.mem_cons_self
  cases ts with
  | nil => simpa using first
  | cons u us =>
    rw [List.intercalate_cons_cons, List.append_assoc]
    exact List.append_ne_nil_of_left_ne_nil first _

/-- A roll that is worked out has a text. -/
theorem evaluate_ne_nil {rank : Rank} {roll text : Text}
    (h : (evaluate rank roll).answer = .ok text) : text ≠ [] := by
  obtain ⟨w, ps, texts, hw, damage, written, rfl⟩ := evaluate_ok_iff_damage.1 h
  have expressions := damage.built builds_worded fun a => Token.isAtom_of_lexemes hw
  refine intercalate_ne_nil _ (fun none => damage.ne_nil ?_) fun t mem => ?_
  · rw [none] at written
    exact List.forall₂_nil_right_iff.1 written
  · obtain ⟨p, hp, v, hv, -, rfl⟩ := written_of_mem written mem
    exact Value.labelled_ne_nil (expressions p hp rank v hv) p.2

end Roll

/-! ## Families -/

theorem Tag.linkName_ne_nil {body text : Text} (h : linkName body = .ok text) : text ≠ [] := by
  unfold linkName at h
  dsimp only at h
  split at h
  · cases h
  · rename_i filled
    cases h
    simpa using filled

theorem Check.label_ne_nil (check : Check) : check.label ≠ [] := by
  cases check with
  | flat => decide
  | save s => exact List.append_ne_nil_of_right_ne_nil s.name (by decide)
  | skill s => exact List.append_ne_nil_of_right_ne_nil s.name (by decide)

theorem Check.render_ne_nil {body text : Text} (h : render body = .ok text) : text ≠ [] := by
  unfold render at h
  dsimp only at h
  split at h
  · cases h
  · rename_i check _
    split at h
    · cases h
      exact check.label_ne_nil
    · cases h
      simp

theorem Template.render_ne_nil {body text : Text} (h : render body = .ok text) : text ≠ [] := by
  unfold render at h
  dsimp only at h
  split at h
  · cases h
  · split at h
    · cases h
    · cases h
      simp

/-! ## Tags -/

/-- No tag is rendered to nothing: whatever its name and its body are, a tag that has a rendering at
some rank has one with characters in it. -/
theorem Tag.rendering_ne_nil {rank : Rank} {tag : Tag} {text : Text}
    (h : (tag.render rank).answer = .ok text) : text ≠ [] := by
  unfold render at h
  split at h
  · cases h
  · exact linkName_ne_nil ((Logged.answer_mapError_ok (x := .ofExcept (linkName tag.body))).1 h)
  · exact Roll.evaluate_ne_nil (Logged.answer_mapError_ok.1 h)
  · exact Check.render_ne_nil
      ((Logged.answer_mapError_ok (x := .ofExcept (Check.render tag.body))).1 h)
  · exact Template.render_ne_nil
      ((Logged.answer_mapError_ok (x := .ofExcept (Template.render tag.body))).1 h)

/-- The zero gives way to the dice, and healing leaves no label; the dice stay. -/
theorem Tag.healing_dice_rendered :
    (Tag.render {} ⟨"Damage".toList, "0*1d4[healing]".toList⟩).answer = .ok "1d4".toList ∧
      "1d4".toList ≠ [] := by
  have out : (Tag.render {} ⟨"Damage".toList, "0*1d4[healing]".toList⟩).answer =
      .ok "1d4".toList := by decide +kernel
  exact ⟨out, Tag.rendering_ne_nil out⟩

end RulesText
