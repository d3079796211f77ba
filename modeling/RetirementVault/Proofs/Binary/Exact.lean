import Mathlib.Algebra.Order.Field.Basic
import Mathlib.Algebra.Order.Field.Rat
import Mathlib.Tactic.FieldSimp
import Mathlib.Tactic.Linarith
import Mathlib.Tactic.NormNum
import RetirementVault.Binary.Bits

/-!
# Exact values

A finite value is a rational number, its units over the number of units in one (`Value.rational?`),
and for a 64-bit encoding it is the number that the three fields stand for (`rational?_ofCode`).

Rounding a quotient to a whole number gives the one that is nearest to it, a half going to the even
neighbour. There is no other such number, so this says all about it
(`isNearest_roundHalfEven`, `IsNearest.unique`).
-/

set_option autoImplicit false

namespace RetirementVault.Binary

/-! ## The nearest whole number -/

/-- A whole number is nearest to a rational one; of two that are equally near it is the even one. -/
structure IsNearest (x : ℚ) (n : ℕ) : Prop where
  near : |x - n| ≤ 1 / 2
  even : |x - n| = 1 / 2 → n % 2 = 0

theorem IsNearest.unique {x : ℚ} {m n : ℕ} (hm : IsNearest x m) (hn : IsNearest x n) : m = n := by
  by_contra hne
  -- Two different ones lie one apart, with the number in the middle, and are not both even.
  wlog hlt : m < n generalizing m n
  · exact this hn hm (Ne.symm hne) (lt_of_le_of_ne (not_lt.mp hlt) (Ne.symm hne))
  obtain ⟨hm₁, hm₂⟩ := abs_le.mp hm.near
  obtain ⟨hn₁, hn₂⟩ := abs_le.mp hn.near
  have hstep : (m : ℚ) + 1 ≤ n := by exact_mod_cast hlt
  have hxm : x - m = 1 / 2 := by linarith
  have hxn : x - n = -(1 / 2) := by linarith
  have hnext : n = m + 1 := by
    have hcast : (n : ℚ) = m + 1 := by linarith
    exact_mod_cast hcast
  have heven := hm.even (by rw [hxm]; norm_num)
  have heven' := hn.even (by rw [hxn]; norm_num)
  omega

/-- The distance from a quotient to a whole number, in halves of the denominator. -/
theorem abs_ratio_sub_eq (num n : ℕ) {den : ℕ} (hden : 0 < den) :
    |(num : ℚ) / den - n| = (2 * (num : ℤ) - 2 * (n * den : ℕ)).natAbs / (2 * den) := by
  have hpos : (0 : ℚ) < den := by exact_mod_cast hden
  have hsplit : (num : ℚ) / den - n = (2 * (num : ℤ) - 2 * (n * den : ℕ) : ℤ) / (2 * den) := by
    push_cast
    field_simp
  rw [hsplit, abs_div, abs_of_pos (show (0 : ℚ) < 2 * den by linarith), Nat.cast_natAbs,
    Int.cast_abs]

theorem roundHalfEven_near (num : ℕ) {den : ℕ} (hden : 0 < den) :
    (2 * (num : ℤ) - 2 * (roundHalfEven num den * den : ℕ)).natAbs ≤ den ∧
      ((2 * (num : ℤ) - 2 * (roundHalfEven num den * den : ℕ)).natAbs = den →
        roundHalfEven num den % 2 = 0) := by
  have hsplit := Nat.div_add_mod num den
  have hrest := Nat.mod_lt num hden
  rw [Nat.mul_comm] at hsplit
  unfold roundHalfEven
  dsimp only
  split
  · omega
  · split
    · rw [Nat.succ_mul]
      omega
    · rcases Nat.mod_two_eq_zero_or_one (num / den) with heven | hodd
      · rw [heven, Nat.add_zero]
        omega
      · rw [hodd, Nat.succ_mul]
        omega

/-- **Rounding gives the nearest whole number**, and of two the even one. -/
theorem isNearest_roundHalfEven (num : ℕ) {den : ℕ} (hden : 0 < den) :
    IsNearest (num / den) (roundHalfEven num den) := by
  obtain ⟨hnear, heven⟩ := roundHalfEven_near num hden
  have hpos : (0 : ℚ) < 2 * den := by exact_mod_cast Nat.mul_pos Nat.two_pos hden
  refine ⟨?_, fun h => heven ?_⟩
  · rw [abs_ratio_sub_eq num _ hden, div_le_iff₀ hpos, one_div, inv_mul_cancel_left₀ two_ne_zero]
    exact_mod_cast hnear
  · rw [abs_ratio_sub_eq num _ hden, div_eq_iff hpos.ne', one_div,
      inv_mul_cancel_left₀ two_ne_zero] at h
    exact_mod_cast h

namespace Value

variable {F : Format}

/-- The rational number that a finite value is. -/
def rational? : Value F → Option ℚ
  | .finite negative units _ _ => some ((signed negative units : ℚ) / 2 ^ F.scale)
  | .nan | .infinite _ => none

end Value

/-- The size that eleven bits of exponent and 52 bits of fraction stand for. The least exponent has
no leading one. -/
def fieldSize (exponent fraction : ℕ) : ℚ :=
  if exponent = 0 then (fraction / 2 ^ 52) * 2 ^ (-1022 : ℤ)
  else (1 + fraction / 2 ^ 52) * 2 ^ ((exponent : ℤ) - 1023)

/-- The number that a 64-bit encoding stands for. -/
def encoded (bits : UInt64) : ℚ :=
  let size := fieldSize (bits.toNat / 2 ^ 52 % 2 ^ 11) (bits.toNat % 2 ^ 52)
  if bits.toNat < 2 ^ 63 then size else -size

/-- An encoding of a number: its exponent is not the largest. -/
def EncodesNumber (bits : UInt64) : Prop :=
  bits.toNat / 2 ^ 52 % 2 ^ 11 ≠ 2047

/-- The number of units that an encoding with these fields stands for. -/
def fieldUnits (exponent fraction : ℕ) : ℕ :=
  if exponent = 0 then fraction else (2 ^ 52 + fraction) * 2 ^ (exponent - 1)

/-- The fields of an encoding of a number give a value without any rounding. -/
theorem fieldUnits_fits {exponent fraction : ℕ} (hfraction : fraction < 2 ^ 52) :
    binary64.Fits (fieldUnits exponent fraction) := by
  unfold fieldUnits
  split
  · have hfits := binary64.fits_mul_two_pow (m := fraction) (by show _ ≤ 2 ^ 53; omega) 0
    rwa [Nat.pow_zero, Nat.mul_one] at hfits
  · exact binary64.fits_mul_two_pow (by show _ ≤ 2 ^ 53; omega) _

theorem fieldUnits_lt_limit {exponent fraction : ℕ} (hfraction : fraction < 2 ^ 52)
    (hexponent : exponent < 2047) : fieldUnits exponent fraction < binary64.limit := by
  have hrange : exponent - 1 ≤ binary64.range := by
    show exponent - 1 ≤ 2045
    omega
  have hprecision : 2 ^ 52 + fraction < 2 ^ binary64.precision := by
    show _ < 2 ^ 53
    omega
  have hunits : fieldUnits exponent fraction ≤ (2 ^ 52 + fraction) * 2 ^ (exponent - 1) := by
    unfold fieldUnits
    split
    · exact Nat.le_trans (Nat.le_add_left _ _) (Nat.le_mul_of_pos_right _ (Nat.two_pow_pos _))
    · exact Nat.le_refl _
  calc fieldUnits exponent fraction
      ≤ (2 ^ 52 + fraction) * 2 ^ (exponent - 1) := hunits
    _ ≤ (2 ^ 52 + fraction) * 2 ^ binary64.range :=
        Nat.mul_le_mul_left _ (Nat.pow_le_pow_right (by decide) hrange)
    _ < 2 ^ binary64.precision * 2 ^ binary64.range :=
        Nat.mul_lt_mul_of_pos_right hprecision (Nat.two_pow_pos _)
    _ = binary64.limit := (Nat.pow_add ..).symm

/-- The size of the fields, by the units they stand for. -/
theorem fieldUnits_div (exponent fraction : ℕ) :
    (fieldUnits exponent fraction : ℚ) / 2 ^ binary64.scale = fieldSize exponent fraction := by
  have hscale : (2 : ℚ) ^ binary64.scale = 2 ^ 52 * 2 ^ 1022 := pow_add _ 52 1022
  rw [hscale]
  unfold fieldUnits fieldSize
  split
  · rw [zpow_neg, div_mul_eq_div_div, div_eq_mul_inv]
    rfl
  · next hexponent =>
    obtain ⟨e, rfl⟩ := Nat.exists_eq_succ_of_ne_zero hexponent
    have hpower : (2 : ℚ) ^ ((e.succ : ℤ) - 1023) = 2 ^ e / 2 ^ 1022 := by
      have hshift : (e.succ : ℤ) - 1023 = (e : ℤ) - (1022 : ℕ) := by omega
      rw [hshift, zpow_sub₀ two_ne_zero, zpow_natCast, zpow_natCast]
    rw [hpower, Nat.succ_eq_add_one, Nat.add_sub_cancel]
    have hsmall : (2 : ℚ) ^ 1022 ≠ 0 := pow_ne_zero _ two_ne_zero
    generalize (2 : ℚ) ^ 1022 = small at hsmall ⊢
    push_cast
    field_simp
    norm_num

/-- **An encoding of a number is read without rounding.** -/
theorem rational?_ofCode {bits : UInt64} (h : EncodesNumber bits) :
    (Value.ofCode binary64 bits.toNat).rational? = some (encoded bits) := by
  have hfraction : bits.toNat % 2 ^ 52 < 2 ^ 52 := Nat.mod_lt _ (Nat.two_pow_pos _)
  have hexponent : bits.toNat / 2 ^ 52 % 2 ^ 11 < 2047 := by
    have hfield := Nat.mod_lt (bits.toNat / 2 ^ 52) (Nat.two_pow_pos 11)
    unfold EncodesNumber at h
    omega
  have hnegative : bits.toNat / (2 ^ 52 * 2 ^ 11) % 2 = 1 ↔ ¬ bits.toNat < 2 ^ 63 := by
    have hsize := bits.toNat_lt
    omega
  have hcode : Value.ofCode binary64 bits.toNat
      = Value.ofUnits binary64 (decide (¬ bits.toNat < 2 ^ 63))
          (fieldUnits (bits.toNat / 2 ^ 52 % 2 ^ 11) (bits.toNat % 2 ^ 52)) 1 := by
    have hfield : Value.fractionField binary64 = 2 ^ 52 := rfl
    have hfield' : Value.exponentField binary64 = 2 ^ 11 := rfl
    unfold Value.ofCode fieldUnits
    rw [hfield, hfield']
    dsimp only
    rw [if_neg (by omega), decide_eq_decide.mpr hnegative]
    split <;> rfl
  rw [hcode, Value.ofUnits_of_fits (fieldUnits_fits hfraction)
    (fieldUnits_lt_limit hfraction hexponent), Value.rational?, encoded, ← fieldUnits_div]
  by_cases hsign : bits.toNat < 2 ^ 63
  · simp only [hsign, signed, not_true_eq_false, decide_false, if_true, Bool.false_eq_true,
      if_false, Int.cast_natCast]
  · simp only [hsign, signed, not_false_eq_true, decide_true, if_true, if_false, Int.cast_neg,
      Int.cast_natCast, neg_div]

end RetirementVault.Binary
