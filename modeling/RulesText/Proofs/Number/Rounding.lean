/-
Rounding a quotient that is a double gives that double. The quotient is measured in `ℚ`, where its
binade is a logarithm; from there on the mantissa comes out whole.
-/
import RulesText.Number.Decimal
import RulesText.Proofs.Number.Bits

namespace RulesText.Number

/-! ## Powers -/

theorem power_pos {base : Nat} (h : 0 < base) (e : Int) : 0 < power base e := Nat.pow_pos h

theorem power_of_nonpos (base : Nat) {e : Int} (h : e ≤ 0) : power base e = 1 := by
  unfold power
  rw [Int.toNat_of_nonpos h]
  rfl

/-- A power and the power of the opposite exponent make the power in `ℚ`. -/
theorem power_div (base : Nat) (e : Int) :
    (power base e : ℚ) / power base (-e) = (base : ℚ) ^ e := by
  obtain ⟨n, rfl | rfl⟩ := e.eq_nat_or_neg
  · rw [power_of_nonpos base (by omega : -(n : Int) ≤ 0)]
    simp [power]
  · rw [power_of_nonpos base (by omega : -(n : Int) ≤ 0)]
    simp [power]

/-! ## The binade -/

/-- The binade of a quotient is next to the difference of the binades of its parts. -/
theorem log_quotient {num den : Nat} (hn : 0 < num) (hd : 0 < den) :
    (2 : ℚ) ^ ((num.log2 : Int) - den.log2 - 1) ≤ num / den ∧
      (num / den : ℚ) < 2 ^ ((num.log2 : Int) - den.log2 + 1) := by
  have numLow : (2 : ℚ) ^ num.log2 ≤ num := by exact_mod_cast Nat.log2_self_le hn.ne'
  have numHigh : (num : ℚ) < 2 ^ (num.log2 + 1) := by exact_mod_cast Nat.lt_log2_self
  have denLow : (2 : ℚ) ^ den.log2 ≤ den := by exact_mod_cast Nat.log2_self_le hd.ne'
  have denHigh : (den : ℚ) < 2 ^ (den.log2 + 1) := by exact_mod_cast Nat.lt_log2_self
  have hd' : (0 : ℚ) < den := by exact_mod_cast hd
  constructor
  · rw [sub_sub, zpow_sub₀ two_ne_zero, zpow_natCast, ← Nat.cast_succ, zpow_natCast]
    exact div_le_div₀ (by positivity) numLow hd' denHigh.le
  · rw [sub_add_eq_add_sub, zpow_sub₀ two_ne_zero, ← Nat.cast_succ, zpow_natCast, zpow_natCast]
    exact div_lt_div₀ numHigh denLow (by positivity) (by positivity)

/-- Comparing with a multiple of a power of two, in `Nat` and in `ℚ`. -/
theorem quotient_lt_iff {num den : Nat} (hd : 0 < den) (k : Nat) (e : Int) :
    num * power 2 (-e) < k * (den * power 2 e) ↔ (num / den : ℚ) < k * 2 ^ e := by
  have hd' : (0 : ℚ) < den := by exact_mod_cast hd
  have hp : (0 : ℚ) < power 2 (-e) := by exact_mod_cast power_pos two_pos (-e)
  have scale := power_div 2 e
  rw [Nat.cast_ofNat] at scale
  rw [div_lt_iff₀ hd', ← scale, mul_div_assoc', div_mul_eq_mul_div, lt_div_iff₀ hp]
  rw [← Nat.cast_lt (α := ℚ)]
  push_cast
  rw [mul_right_comm, mul_assoc]

theorem binade_eq {num den : Nat} (hn : 0 < num) (hd : 0 < den) :
    binade num den = max leastExponent (Int.log 2 (num / den : ℚ) - 52) := by
  have pos : (0 : ℚ) < num / den := div_pos (by exact_mod_cast hn) (by exact_mod_cast hd)
  obtain ⟨low, high⟩ := log_quotient hn hd
  have above := (Int.zpow_le_iff_le_log one_lt_two pos).1 (by rwa [Nat.cast_ofNat])
  have below := (Int.lt_zpow_iff_log_lt one_lt_two pos).1 (by rwa [Nat.cast_ofNat])
  have test (e : Int) : num * power 2 (-e) < power 2 52 * (den * power 2 e) ↔
      Int.log 2 (num / den : ℚ) < 52 + e := by
    have carry : (power 2 52 : ℚ) = 2 ^ (52 : Int) := by exact_mod_cast rfl
    rw [quotient_lt_iff hd, carry, ← Int.lt_zpow_iff_log_lt one_lt_two pos, Nat.cast_ofNat,
      zpow_add₀ two_ne_zero]
  unfold binade
  simp only [test]
  split <;> omega

/-! ## Quotients that are doubles -/

theorem log_canonical {m : Nat} (pos : 0 < m) (e : Int) :
    Int.log 2 ((m : ℚ) * 2 ^ e) = m.log2 + e := by
  have low : (2 : ℚ) ^ m.log2 ≤ m := by exact_mod_cast Nat.log2_self_le pos.ne'
  have high : (m : ℚ) < 2 ^ (m.log2 + 1) := by exact_mod_cast Nat.lt_log2_self
  have hm : (0 : ℚ) < m := by exact_mod_cast pos
  have positive : (0 : ℚ) < m * 2 ^ e := by positivity
  have above := (Int.zpow_le_iff_le_log one_lt_two positive (x := m.log2 + e)).1 (by
    rw [Nat.cast_ofNat, zpow_add₀ two_ne_zero, zpow_natCast]
    gcongr)
  have below := (Int.lt_zpow_iff_log_lt one_lt_two positive (x := m.log2 + e + 1)).1 (by
    rw [Nat.cast_ofNat, add_right_comm, zpow_add₀ two_ne_zero, ← Nat.cast_succ, zpow_natCast]
    gcongr)
  omega

/-- The quotient `num / den` is `mantissa · 2 ^ exponent`. -/
def Denotes (num den mantissa : Nat) (exponent : Int) : Prop :=
  num * power 2 (-exponent) = mantissa * (den * power 2 exponent)

theorem Denotes.quotient {num den m : Nat} {e : Int} (h : Denotes num den m e) (hd : 0 < den) :
    (num / den : ℚ) = m * 2 ^ e := by
  have hd' : (den : ℚ) ≠ 0 := by exact_mod_cast hd.ne'
  have hp : (power 2 (-e) : ℚ) ≠ 0 := by exact_mod_cast (power_pos two_pos (-e)).ne'
  have scale := power_div 2 e
  have eq : (num : ℚ) * power 2 (-e) = m * (den * power 2 e) := by exact_mod_cast h
  rw [Nat.cast_ofNat] at scale
  rw [← scale]
  field_simp
  linarith

theorem binade_exact {num den m : Nat} {e : Int} (h : Denotes num den m e) (c : Canonical m e)
    (hm : 0 < m) (hn : 0 < num) (hd : 0 < den) : binade num den = e := by
  rw [binade_eq hn hd, h.quotient hd, log_canonical hm]
  have high : m.log2 < 53 := (Nat.log2_lt hm.ne').2 c.below
  have least := c.least
  rcases c.normal with normal | least'
  · have low : 52 ≤ m.log2 := (Nat.le_log2 hm.ne').2 normal
    omega
  · have : m.log2 ≤ 52 := by omega
    omega

/-- The bits of a quotient that is a double are the pattern of that double. -/
theorem nearestBits_exact {num den m : Nat} {e : Int} (h : Denotes num den m e)
    (c : Canonical m e) (hd : 0 < den) : nearestBits num den = pattern m e := by
  have hden : 0 < den * power 2 e := Nat.mul_pos hd (power_pos two_pos e)
  have hpow := power_pos two_pos (-e)
  unfold nearestBits
  rcases Nat.eq_zero_or_pos m with rfl | hm
  · have hn : num = 0 := by
      rw [Denotes, Nat.zero_mul] at h
      exact (Nat.mul_eq_zero.1 h).resolve_right hpow.ne'
    have he : e = leastExponent := c.normal.resolve_left (by decide)
    simp [hn, pattern, he]
  · have hn : 0 < num := by
      refine Nat.pos_of_ne_zero fun hn => ?_
      rw [Denotes, hn, Nat.zero_mul] at h
      exact (Nat.mul_pos hm hden).ne h
    rw [if_neg hn.ne', binade_exact h c hm hn hd]
    show min (2047 * 2 ^ 52) ((e - leastExponent).toNat * 2 ^ 52 + _) = _
    rw [Denotes] at h
    rw [h, Direction.divide_mul _ _ _ hden]
    exact Nat.min_eq_right c.pattern_lt.le

/-- Rounding a quotient that is a double gives that double. -/
theorem nearest_exact {x : Float} {m : Nat} {e : Int} (hx : form x = .finite false m e)
    {num den : Nat} (hd : 0 < den) (h : Denotes num den m e) : nearest num den = x := by
  rw [nearest, nearestBits_exact h (form_finite hx).1 hd, ofBits_pattern hx]

theorem nearestBits_le (num den : Nat) : nearestBits num den ≤ 2047 * 2 ^ 52 := by
  unfold nearestBits
  split
  · exact Nat.zero_le _
  · exact Nat.min_le_left _ _

/-- Rounding gives the infinity or a finite double without a sign. -/
theorem form_nearest (num den : Nat) :
    form (nearest num den) = .infinite false ∨ ∃ m e, form (nearest num den) = .finite false m e :=
  form_ofBits (nearestBits_le num den)

/-! ## Decimals that read back -/

namespace Decimal

theorem exact_toFloat {x : Float} {m : Nat} {e : Int} (hx : form x = .finite false m e) :
    (exact m e).toFloat = x := by
  refine nearest_exact hx (power_pos (by decide) _) ?_
  have whole : power 10 (min e 0) = 1 := power_of_nonpos 10 (min_le_right e 0)
  have ten : power 10 (-min e 0) = power 2 (-e) * power 5 (-e) := by
    unfold power
    rw [show (-min e 0).toNat = (-e).toNat by omega]
    exact Nat.mul_pow 2 5 _
  show m * power 2 e * power 5 (-e) * power 10 (min e 0) * power 2 (-e) =
    m * (power 10 (-min e 0) * power 2 e)
  rw [whole, ten]
  ring

theorem coarsest_toFloat {x : Float} {m : Nat} {e : Int} (h : (exact m e).toFloat = x)
    (bottom : Int) (steps : Nat) : (coarsest x m e bottom steps).toFloat = x := by
  induction steps with
  | zero => exact h
  | succ steps ih =>
    unfold coarsest
    dsimp only
    split
    · rename_i low
      split
      · rename_i high
        simp only [Bool.and_eq_true, decide_eq_true_eq] at high
        exact Float.toBits_inj.1 high.1
      · exact Float.toBits_inj.1 low
    · split
      · rename_i high
        exact Float.toBits_inj.1 high
      · exact ih

/-- The shortest decimal of a double reads back as the double. -/
theorem shortest_toFloat {x : Float} {m : Nat} {e : Int} (hx : form x = .finite false m e) :
    (shortest x m e).toFloat = x :=
  coarsest_toFloat (exact_toFloat hx) _ _

end Decimal

end RulesText.Number
