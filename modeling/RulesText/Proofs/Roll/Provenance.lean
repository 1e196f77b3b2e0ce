/-
Where the characters of a worked-out roll come from. Numbers and the words of the library's own are
made of few characters, and all the rest is atoms and damage types of the roll; so whatever the rank
is, the text of a roll is drawn from the roll (`evaluate_drawn`).
-/
import RulesText.Proofs.Number.Numeral
import RulesText.Proofs.Roll.Faults
import RulesText.Proofs.Roll.Kinds
import RulesText.Proofs.Roll.Meaning
import RulesText.Text.Drawn

namespace RulesText

open Text (DrawnFrom isWritten)

/-! ## Numbers -/

theorem Text.isWritten_of_isDigit {c : Char} (h : c.isDigit = true) : isWritten c = true := by
  simp [isWritten, Char.isAlphanum, h]

theorem Number.Decimal.text_drawn (source : Text) (d : Decimal) : DrawnFrom source d.text := by
  intro c hc
  rcases text_chars d hc with digit | rfl
  · exact .inr (Text.isWritten_of_isDigit digit)
  · exact .inr rfl

theorem Number.exactText_drawn (source : Text) (x : Float) : DrawnFrom source (exactText x) := by
  have magnitude (m : Nat) (d : Decimal) :
      DrawnFrom source (if m = 0 then ['0'] else d.text) := by
    split
    · exact .of_written rfl
    · exact Decimal.text_drawn source d
  unfold exactText
  split
  · exact .of_written (by decide)
  · split <;> exact .of_written (by decide)
  · dsimp only
    split
    · exact .cons rfl (magnitude _ _)
    · exact magnitude _ _

namespace Roll

/-! ## Values -/

theorem Value.number_drawn (source : Text) (x : Float) : DrawnFrom source (Value.number x).text :=
  Number.exactText_drawn source _

/-- What an operator makes of two operands is drawn from what they are drawn from. -/
theorem Operator.apply_drawn {op : Operator} {source : Text} {l r v : Value}
    (hl : DrawnFrom source l.text) (hr : DrawnFrom source r.text)
    (h : (op.apply l r).answer = .ok v) : DrawnFrom source v.text := by
  have sign : isWritten op.sign = true := by cases op <;> rfl
  unfold apply at h
  split at h
  · cases h
  · split at h
    · cases h
      exact Value.number_drawn source _
    · split at h
      · rw [identity_answer] at h
        cases h
        exact hr
      · split at h
        · rw [identity_answer] at h
          cases h
          exact hl
        · cases h
          exact hl.append (.cons rfl (.cons sign (.cons rfl hr)))

/-! ## Expressions -/

/-- Whatever the rank is, the text of an expression is drawn from `source`. -/
def Tree.DrawnFrom (source : Text) (t : Tree) : Prop :=
  ∀ rank v, t.HasValue rank v → Text.DrawnFrom source v.text

/-- The texts of expressions are drawn from what their atoms are drawn from. -/
theorem builds_drawn (source : Text) :
    Grammar.Builds (DrawnFrom source) (Tree.DrawnFrom source) where
  leaf {a} _ drawn rank v h := by
    cases literal : Number.Decimal.ofLiteral? a with
    | some d =>
      rw [Tree.leaf, literal] at h
      cases h
      exact Value.number_drawn source _
    | none =>
      rw [Tree.leaf, literal] at h
      cases h with
      | reference _ => exact Value.number_drawn source _
      | name _ => exact drawn
  binary op _ _ hl hr rank v h := by
    cases h with
    | binary l r applied => exact Operator.apply_drawn (hl rank _ l) (hr rank _ r) applied
  call _ hts rank v h := by
    cases h with
    | ceil _ | floor _ | max _ _ => exact Value.number_drawn source _
    | @gte _ _ x y _ _ =>
      show DrawnFrom source (if decide (y ≤ x) then _ else _)
      split <;> exact .of_written (by decide)
    | yes no _ h => exact hts _ (by simp) rank v h
    | no yes _ h => exact hts _ (by simp) rank v h
  dice _ drawn ht rank v h := by
    cases h with
    | dice _ count _ => exact (ht rank _ count).append drawn

/-! ## Rolls -/

/-- What the lexemes of a roll are written with stands in the roll. -/
theorem Token.mem_of_mem_lexeme {roll : Text} {w : List Lexeme} (hw : lexemes roll = some w)
    {l : Lexeme} (hl : l ∈ w) {c : Char} (hc : c ∈ l.text) : c ∈ roll := by
  obtain ⟨tokens, scan, rfl⟩ := lexemes_eq_some_iff.1 hw
  obtain ⟨t, ht, rfl⟩ := List.mem_map.1 hl
  obtain ⟨before, after, e, -⟩ := (stands_of_scan roll).2 tokens scan t ht
  rw [e]
  exact List.mem_append_left _ (List.mem_append_right _ hc)

/-- The damage types of a roll are among its lexemes. -/
theorem Grammar.Damage.type_mem {w : List Lexeme} {ps : List (Tree × Option Text)}
    (damage : Damage w ps) {p : Tree × Option Text} (hp : p ∈ ps) {type : Text}
    (ht : p.2 = some type) : .damageType type ∈ w := by
  induction damage with
  | one entry =>
    obtain rfl := List.mem_singleton.1 hp
    cases entry <;> cases ht
    simp
  | more _ entry ih =>
    rcases List.mem_append.1 hp with hp | hp
    · exact List.mem_append_left _ (ih hp)
    · obtain rfl := List.mem_singleton.1 hp
      cases entry <;> cases ht
      simp

theorem damageLabel_drawn (type : Text) : DrawnFrom type (damageLabel type) := by
  have label : DrawnFrom type (type.map fun c => if c = ',' then ' ' else c) := by
    intro c hc
    obtain ⟨d, hd, rfl⟩ := List.mem_map.1 hc
    split
    · exact .inr rfl
    · exact .inl hd
  unfold damageLabel
  dsimp only
  split
  · exact .of_written (by decide)
  · split
    · exact .nil
    · exact label

theorem Value.labelled_drawn {source : Text} {v : Value} {damageType : Option Text}
    (hv : DrawnFrom source v.text) (ht : ∀ type, damageType = some type → DrawnFrom source type) :
    DrawnFrom source (v.labelled damageType) := by
  have label : DrawnFrom source ((damageType.map damageLabel).getD []) := by
    cases damageType with
    | none => exact .nil
    | some type => exact (ht type rfl).trans (damageLabel_drawn type)
  unfold labelled
  dsimp only
  split
  · exact hv
  · exact hv.append (.cons rfl label)

/-- Each of the texts of some terms is what one of them is written out as. -/
theorem written_of_mem {rank : Rank} {ps : List (Tree × Option Text)} {texts : List Text}
    (h : List.Forall₂ (Written rank) ps texts) {text : Text} (mem : text ∈ texts) :
    ∃ p ∈ ps, Written rank p text := by
  induction h with
  | nil => cases mem
  | @cons p _ _ _ written _ ih =>
    rcases List.mem_cons.1 mem with rfl | mem
    · exact ⟨p, List.mem_cons_self, written⟩
    · obtain ⟨q, hq, written⟩ := ih mem
      exact ⟨q, List.mem_cons_of_mem _ hq, written⟩

/-- The text of a roll is drawn from the roll. -/
theorem evaluate_drawn {rank : Rank} {roll text : Text}
    (h : (evaluate rank roll).answer = .ok text) :
    DrawnFrom roll text := by
  obtain ⟨w, ps, texts, hw, damage, written, rfl⟩ := evaluate_ok_iff_damage.1 h
  have expressions := damage.built (builds_drawn roll) fun a ha =>
    .of_subset fun c hc => Token.mem_of_mem_lexeme hw ha hc
  refine .intercalate (.of_written (by decide)) fun t mem => ?_
  obtain ⟨p, hp, v, hv, -, rfl⟩ := written_of_mem written mem
  refine Value.labelled_drawn (expressions p hp rank v hv) fun type ht => .of_subset fun c hc => ?_
  exact Token.mem_of_mem_lexeme hw (damage.type_mem hp ht) (by simp [Lexeme.text, hc])

end Roll

end RulesText
