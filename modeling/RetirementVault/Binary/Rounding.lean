import RetirementVault.Power

/-!
# Rounding to a binary format

A binary format holds multiples of one smallest unit, `2 ^ -scale`, that have at most `precision`
significant bits and are not too large. This file says which counts of units those are and rounds
an exact quotient to the nearest of them, a half going to the even neighbour.

There is one rounding in the whole project, `Format.roundUnits`; every operation on values is an
exact computation on units followed by it. The one fact here is `roundUnits_fits`: what comes out
has no more bits than the format keeps.
-/

namespace RetirementVault.Binary

/-- The nearest whole number to a quotient; a half goes to the even neighbour. -/
def roundHalfEven (num den : Nat) : Nat :=
  let whole := num / den
  let rest := 2 * (num % den)
  if rest < den then whole else if den < rest then whole + 1 else whole + whole % 2

/-- A binary format: how many bits a significand has, how small the unit is, and how far a
significand may be shifted above the unit. -/
structure Format where
  /-- Bits of a significand. -/
  precision : Nat
  /-- The unit, the least positive value, is `2 ^ -scale`. -/
  scale : Nat
  /-- A finite value is below `2 ^ (precision + range)` units. -/
  range : Nat
  precision_pos : 0 < precision := by decide
  deriving DecidableEq

def binary32 : Format where
  precision := 24
  scale := 149
  range := 253

def binary64 : Format where
  precision := 53
  scale := 1074
  range := 2045

namespace Format

/-- How many low bits of a count of units are beyond the precision. -/
def spareBits (F : Format) (units : Nat) : Nat :=
  units.log2 + 1 - F.precision

/-- No bit of the count is set beyond the precision. -/
def Fits (F : Format) (units : Nat) : Prop :=
  2 ^ F.spareBits units ∣ units

instance (F : Format) (units : Nat) : Decidable (F.Fits units) :=
  inferInstanceAs (Decidable (_ ∣ _))

/-- The first count of units that is too large to be finite. -/
def limit (F : Format) : Nat :=
  2 ^ (F.precision + F.range)

/-- A quotient of units, rounded to the precision of the format. The result may be as large as
`limit` or larger; that is overflow, and the caller's to answer. -/
def roundUnits (F : Format) (num den : Nat) : Nat :=
  let spare := F.spareBits (num / den)
  roundHalfEven num (den * 2 ^ spare) * 2 ^ spare

end Format

/-! ## Bounds -/

theorem roundHalfEven_le_of_lt {num den k : Nat} (h : num / den < k) :
    roundHalfEven num den ≤ k := by
  unfold roundHalfEven
  dsimp only
  split
  · omega
  · split <;> omega

theorem le_roundHalfEven (num den : Nat) : num / den ≤ roundHalfEven num den := by
  unfold roundHalfEven
  dsimp only
  split
  · exact Nat.le_refl _
  · split <;> omega

theorem roundHalfEven_mul {den : Nat} (h : 0 < den) (n : Nat) :
    roundHalfEven (n * den) den = n := by
  simp [roundHalfEven, Nat.mul_div_cancel _ h, h]

theorem Format.fits_zero (F : Format) : F.Fits 0 :=
  Nat.dvd_zero _

/-- A significand within the precision fits, however far it is shifted. -/
theorem Format.fits_mul_two_pow (F : Format) {m : Nat} (h : m ≤ 2 ^ F.precision) (k : Nat) :
    F.Fits (m * 2 ^ k) := by
  unfold Fits spareBits
  rcases Nat.eq_zero_or_pos m with rfl | hm
  · simp
  have hne : m * 2 ^ k ≠ 0 := Nat.ne_of_gt (Nat.mul_pos hm (Nat.two_pow_pos k))
  rcases Nat.lt_or_eq_of_le h with hlt | rfl
  · have hlog : (m * 2 ^ k).log2 < F.precision + k := by
      rw [Nat.log2_lt hne, Nat.pow_add]
      exact Nat.mul_lt_mul_of_pos_right hlt (Nat.two_pow_pos k)
    exact Nat.dvd_trans (Nat.pow_dvd_pow 2 (by omega)) (Nat.dvd_mul_left _ _)
  · have hp := F.precision_pos
    rw [← Nat.pow_add, Nat.log2_two_pow]
    exact Nat.pow_dvd_pow 2 (by omega)

/-- What rounding gives has no more bits than the format keeps. -/
theorem Format.roundUnits_fits (F : Format) (num den : Nat) :
    F.Fits (F.roundUnits num den) := by
  unfold roundUnits
  refine F.fits_mul_two_pow ?_ _
  refine roundHalfEven_le_of_lt ?_
  rw [← Nat.div_div_eq_div_mul]
  refine (Nat.div_lt_iff_lt_mul (Nat.two_pow_pos _)).2 ?_
  rw [← Nat.pow_add]
  refine Nat.lt_of_lt_of_le Nat.lt_log2_self (Nat.pow_le_pow_right (by decide) ?_)
  unfold spareBits
  omega

theorem Format.roundUnits_of_fits {F : Format} {units : Nat} (h : F.Fits units) :
    F.roundUnits units 1 = units := by
  unfold roundUnits
  simp only [Nat.div_one, Nat.one_mul]
  have hd := Nat.div_mul_cancel h
  have hr := roundHalfEven_mul (Nat.two_pow_pos (F.spareBits units)) (units / 2 ^ F.spareBits units)
  rw [hd] at hr
  rw [hr, hd]

end RetirementVault.Binary
