/-
Numerals that are read back: the positional text of a decimal is a literal for the same double, and
so the text of a finite double without a sign is a literal for that double.
-/
import RulesText.Proofs.Number.Rounding

namespace RulesText.Number

namespace Decimal

/-! ## Literals -/

theorem ne_point_of_isDigit {c : Char} (h : c.isDigit = true) : (c != '.') = true := by
  rw [bne_iff_ne]
  rintro rfl
  exact absurd h (by decide)

theorem any_isDigit {t : Text} (digits : t.all Char.isDigit = true) (ne : t ≠ []) :
    t.any Char.isDigit = true := by
  obtain ⟨c, r, rfl⟩ := List.exists_cons_of_ne_nil ne
  simp_all

/-- Digits up to the point, and digits behind it if there is one. -/
theorem ofLiteral?_parts {integral : Text} (rest : Text) (hi : integral.all Char.isDigit = true)
    (point : rest.takeWhile (· != '.') = []) (hf : (rest.drop 1).all Char.isDigit = true)
    (some_digit : integral ++ rest.drop 1 ≠ []) :
    ofLiteral? (integral ++ rest) =
      some ⟨digitsValue (integral ++ rest.drop 1), -(rest.drop 1).length⟩ := by
  have plain : ∀ c ∈ integral, (c != '.') = true := fun c hc =>
    ne_point_of_isDigit (List.all_eq_true.1 hi c hc)
  have behind : rest.dropWhile (· != '.') = rest := by
    have := List.takeWhile_append_dropWhile (p := (· != '.')) (l := rest)
    rwa [point] at this
  have digit : (integral ++ rest).any Char.isDigit = true := by
    have all : (integral ++ rest.drop 1).all Char.isDigit = true := by
      rw [List.all_append, hi, hf, Bool.and_self]
    have := any_isDigit all some_digit
    rw [List.any_append, Bool.or_eq_true] at this ⊢
    refine this.imp id fun h => ?_
    obtain ⟨c, hc, d⟩ := List.any_eq_true.1 h
    exact List.any_eq_true.2 ⟨c, List.mem_of_mem_drop hc, d⟩
  unfold ofLiteral?
  rw [List.takeWhile_append_of_pos plain, List.dropWhile_append_of_pos plain, point, behind,
    List.append_nil]
  simp only [digit, hi, hf, Bool.and_self, if_true]

theorem ofLiteral?_digits {t : Text} (digits : t.all Char.isDigit = true) (ne : t ≠ []) :
    ofLiteral? t = some ⟨digitsValue t, 0⟩ := by
  simpa using ofLiteral?_parts [] digits rfl rfl (by simpa using ne)

theorem ofLiteral?_point {integral fraction : Text} (hi : integral.all Char.isDigit = true)
    (hf : fraction.all Char.isDigit = true) (ne : integral ++ fraction ≠ []) :
    ofLiteral? (integral ++ '.' :: fraction) =
      some ⟨digitsValue (integral ++ fraction), -fraction.length⟩ :=
  ofLiteral?_parts ('.' :: fraction) hi rfl hf ne

/-! ## Positional notation -/

theorem numeral_all (n : Nat) : (Text.numeral n).all Char.isDigit = true :=
  List.all_eq_true.2 fun _ hc => Nat.isDigit_of_mem_toDigits (by decide) (by decide) hc

theorem numeral_ne_nil (n : Nat) : Text.numeral n ≠ [] := Nat.toDigits_ne_nil

theorem digitsValue_eq (t : Text) : digitsValue t = Nat.ofDigitChars 10 t 0 := rfl

theorem digitsValue_append_zeros (n k : Nat) :
    digitsValue (Text.numeral n ++ List.replicate k '0') = n * 10 ^ k := by
  rw [digitsValue_eq, Nat.ofDigitChars_append, Text.numeral, Nat.ofDigitChars_ten_toDigits,
    Nat.ofDigitChars_replicate_zero, Nat.mul_comm]

theorem digitsValue_zeros_append (n k : Nat) :
    digitsValue (List.replicate k '0' ++ Text.numeral n) = n := by
  rw [digitsValue_eq, Nat.ofDigitChars_append, Nat.ofDigitChars_replicate_zero, Nat.mul_zero,
    Text.numeral, Nat.ofDigitChars_ten_toDigits]

theorem zeros_all (k : Nat) : (List.replicate k '0').all Char.isDigit = true := by
  simp [List.all_replicate]

/-- What the positional text of a decimal is: digits without a point, or so many digits behind a
point as the exponent says. -/
theorem text_cases (d : Decimal) :
    (0 ≤ d.exponent ∧
      d.text = Text.numeral d.coefficient ++ List.replicate d.exponent.toNat '0') ∨
    (d.exponent < 0 ∧ ∃ integral fraction, d.text = integral ++ '.' :: fraction ∧
      integral.all Char.isDigit = true ∧ fraction.all Char.isDigit = true ∧
      integral ++ fraction ≠ [] ∧ digitsValue (integral ++ fraction) = d.coefficient ∧
      (fraction.length : Int) = -d.exponent) := by
  unfold text
  dsimp only
  split
  · rename_i h
    exact .inl ⟨h, rfl⟩
  · rename_i h
    -- Zeros in front make the digits one more than stand behind the point.
    generalize hp : List.replicate ((-d.exponent).toNat + 1 - (Text.numeral d.coefficient).length)
      '0' ++ Text.numeral d.coefficient = padded
    have digits : padded.all Char.isDigit = true := by
      rw [← hp, List.all_append, zeros_all, numeral_all, Bool.and_self]
    have length : (-d.exponent).toNat < padded.length := by
      rw [← hp, List.length_append, List.length_replicate]
      omega
    refine .inr ⟨by omega, _, _, rfl, ?_, ?_, ?_, ?_, ?_⟩
    · exact List.all_eq_true.2 fun c hc => List.all_eq_true.1 digits c (List.mem_of_mem_take hc)
    · exact List.all_eq_true.2 fun c hc => List.all_eq_true.1 digits c (List.mem_of_mem_drop hc)
    · rw [List.take_append_drop]
      exact List.ne_nil_of_length_pos (by omega)
    · rw [List.take_append_drop, ← hp, digitsValue_zeros_append]
    · rw [List.length_drop]
      omega

/-- The text of a decimal is a literal for the same double. -/
theorem text_literal (d : Decimal) :
    ∃ literal, ofLiteral? d.text = some literal ∧ literal.toFloat = d.toFloat := by
  rcases text_cases d with ⟨h, e⟩ | ⟨h, integral, fraction, e, hi, hf, ne, value, length⟩
  · rw [e]
    refine ⟨_, ofLiteral?_digits ?_ ?_, ?_⟩
    · rw [List.all_append, numeral_all, zeros_all, Bool.and_self]
    · exact List.append_ne_nil_of_left_ne_nil (numeral_ne_nil _) _
    · rw [digitsValue_append_zeros]
      simp only [toFloat, power_of_nonpos 10 (by omega : -d.exponent ≤ 0)]
      simp [power]
  · rw [e]
    refine ⟨_, ofLiteral?_point hi hf ne, ?_⟩
    rw [value, length, Int.neg_neg]

theorem text_chars (d : Decimal) {c : Char} (hc : c ∈ d.text) : c.isDigit = true ∨ c = '.' := by
  rcases text_cases d with ⟨-, e⟩ | ⟨-, integral, fraction, e, hi, hf, -⟩
  · rw [e, List.mem_append] at hc
    exact .inl (hc.elim (List.all_eq_true.1 (numeral_all _) c) (List.all_eq_true.1 (zeros_all _) c))
  · rw [e, List.mem_append, List.mem_cons] at hc
    rcases hc with hc | rfl | hc
    · exact .inl (List.all_eq_true.1 hi c hc)
    · exact .inr rfl
    · exact .inl (List.all_eq_true.1 hf c hc)

/-- No literal is without a digit. -/
theorem any_isDigit_of_ofLiteral? {t : Text} {d : Decimal} (h : ofLiteral? t = some d) :
    t.any Char.isDigit = true := by
  unfold ofLiteral? at h
  dsimp only at h
  split at h
  · rename_i digits
    simp only [Bool.and_eq_true] at digits
    exact digits.1.1
  · cases h

end Decimal

/-! ## Doubles -/

theorem exactText_eq {x : Float} {m : Nat} {e : Int} (hx : form x = .finite false m e) :
    exactText x = if m = 0 then ['0'] else (Decimal.shortest x m e).text := by
  rw [exactText, hx]
  rfl

/-- The text of a finite double without a sign is a literal for it. -/
theorem exactText_literal {x : Float} {m : Nat} {e : Int} (hx : form x = .finite false m e) :
    ∃ literal, Decimal.ofLiteral? (exactText x) = some literal ∧ literal.toFloat = x := by
  rw [exactText_eq hx]
  split
  · rename_i hm
    refine ⟨⟨0, 0⟩, rfl, nearest_exact hx (power_pos (by decide) _) ?_⟩
    simp [Denotes, hm]
  · obtain ⟨literal, read, value⟩ := Decimal.text_literal (Decimal.shortest x m e)
    exact ⟨literal, read, value.trans (Decimal.shortest_toFloat hx)⟩

theorem exactText_chars {x : Float} {m : Nat} {e : Int} (hx : form x = .finite false m e)
    {c : Char} (hc : c ∈ exactText x) : c.isDigit = true ∨ c = '.' := by
  rw [exactText_eq hx] at hc
  split at hc
  · rw [List.mem_singleton.1 hc]
    exact .inl rfl
  · exact Decimal.text_chars _ hc

end RulesText.Number
