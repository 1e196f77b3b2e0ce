/-
Doubles and their bits. A pattern of bits up to that of the infinity is kept by the double made of
it, and what the form of a double says of its mantissa and exponent determines the pattern.
-/
import Mathlib
import RulesText.Number.Nearest

namespace RulesText.Number

open Float.Model Float.Model.UnpackedFloat

/-! ## Patterns -/

theorem toNat_exponent (v : BitVec Format.binary64.numBits) :
    (unpackExponent v).toNat = v.toNat / 2 ^ 52 % 2 ^ 11 := by
  rw [unpackExponent_def, BitVec.extractLsb'_toNat, Nat.shiftRight_eq_div_pow]

theorem toNat_mantissa (v : BitVec Format.binary64.numBits) :
    (unpackMantissa v).toNat = v.toNat % 2 ^ 52 := by
  rw [unpackMantissa_def, BitVec.extractLsb'_toNat, Nat.shiftRight_zero]

/-- The patterns of what is not a number come after that of the infinity. -/
theorem isNaNBits_eq_false {v : BitVec Format.binary64.numBits} (h : v.toNat ≤ 2047 * 2 ^ 52) :
    isNaNBits v = false := by
  rw [isNaNBits, decide_eq_false_iff_not]
  rintro ⟨exponent, mantissa⟩
  have top : v.toNat / 2 ^ 52 % 2 ^ 11 = 2047 := by
    rw [← toNat_exponent, exponent]
    rfl
  apply mantissa
  rw [← BitVec.toNat_inj, toNat_mantissa, BitVec.toNat_ofNat, Nat.zero_mod]
  omega

theorem toBits_ofBits {u : UInt64} (h : u.toNat ≤ 2047 * 2 ^ 52) : (Float.ofBits u).toBits = u := by
  have kept := @pack_unpack .binary64 u.toBitVec
  rw [isNaNBits_eq_false h] at kept
  exact UInt64.toBitVec_inj.1 kept

theorem toNat_toBits_ofBits {b : Nat} (h : b ≤ 2047 * 2 ^ 52) :
    (Float.ofBits b.toUInt64).toBits.toNat = b := by
  have toNat : b.toUInt64.toNat = b := UInt64.toNat_ofNat_of_lt' (by simp [UInt64.size]; omega)
  rw [toBits_ofBits (by omega), toNat]

/-! ## Forms -/

/-- The mantissas and exponents of finite doubles. Only the least exponent goes with a mantissa of
fewer than 53 bits. -/
structure Canonical (mantissa : Nat) (exponent : Int) : Prop where
  below : mantissa < 2 ^ 53
  least : leastExponent ≤ exponent
  most : exponent ≤ 971
  normal : 2 ^ 52 ≤ mantissa ∨ exponent = leastExponent

/-- The pattern of the double `mantissa · 2 ^ exponent`. -/
def pattern (mantissa : Nat) (exponent : Int) : Nat :=
  (exponent - leastExponent).toNat * 2 ^ 52 + mantissa

theorem Canonical.pattern_lt {m : Nat} {e : Int} (c : Canonical m e) :
    pattern m e < 2047 * 2 ^ 52 := by
  obtain ⟨below, least, most, normal⟩ := c
  unfold pattern leastExponent at *
  omega

theorem form_eq (x : Float) :
    form x =
      if x.toBits.toNat / 2 ^ 52 % 2 ^ 11 = 2047 then
        if x.toBits.toNat % 2 ^ 52 = 0 then .infinite (2 ^ 63 ≤ x.toBits.toNat) else .notNumber
      else if x.toBits.toNat / 2 ^ 52 % 2 ^ 11 = 0 then
        .finite (2 ^ 63 ≤ x.toBits.toNat) (x.toBits.toNat % 2 ^ 52) leastExponent
      else .finite (2 ^ 63 ≤ x.toBits.toNat) (2 ^ 52 + x.toBits.toNat % 2 ^ 52)
        (((x.toBits.toNat / 2 ^ 52 % 2 ^ 11 : Nat) : Int) - 1075) := rfl

theorem form_finite {x : Float} {m : Nat} {e : Int} (h : form x = .finite false m e) :
    Canonical m e ∧ x.toBits.toNat = pattern m e := by
  have bound := x.toBits.toNat_lt
  have least : leastExponent = -1074 := rfl
  unfold pattern
  rw [form_eq] at h
  generalize x.toBits.toNat = b at h bound ⊢
  split at h
  · split at h <;> cases h
  · split at h
    · simp only [Form.finite.injEq, decide_eq_false_iff_not] at h
      obtain ⟨sign, rfl, rfl⟩ := h
      exact ⟨⟨by omega, by omega, by omega, by omega⟩, by omega⟩
    · simp only [Form.finite.injEq, decide_eq_false_iff_not] at h
      obtain ⟨sign, rfl, rfl⟩ := h
      exact ⟨⟨by omega, by omega, by omega, by omega⟩, by omega⟩

/-- A finite double without a sign is the double of its pattern. -/
theorem ofBits_pattern {x : Float} {m : Nat} {e : Int} (h : form x = .finite false m e) :
    Float.ofBits (pattern m e).toUInt64 = x := by
  rw [← (form_finite h).2]
  show Float.ofBits (UInt64.ofNat x.toBits.toNat) = x
  rw [UInt64.ofNat_toNat, Float.ofBits_toBits]

/-- A pattern up to that of the infinity stands for it or for a finite double without a sign. -/
theorem form_ofBits {b : Nat} (h : b ≤ 2047 * 2 ^ 52) :
    form (Float.ofBits b.toUInt64) = .infinite false ∨
      ∃ m e, form (Float.ofBits b.toUInt64) = .finite false m e := by
  rw [form_eq, toNat_toBits_ofBits h, decide_eq_false (by omega : ¬2 ^ 63 ≤ b)]
  split
  · rw [if_pos (by omega)]
    exact .inl rfl
  · split
    · exact .inr ⟨_, _, rfl⟩
    · exact .inr ⟨_, _, rfl⟩

end RulesText.Number
