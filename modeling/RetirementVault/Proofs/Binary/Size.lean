import RetirementVault.Binary.Exponential

/-!
# How large a result can get

Rounding goes to the nearest value, so it never passes a power of two that was above the exact
result: a power of two has one significant bit and is a value itself. Therefore a bound by a power
of two on the terms of an operation is one on its result, rounding or not, and a result whose bound
is below the limit of the format is finite (`Value.AtMost`).

The bounds are far from sharp. They are for the places where all that matters is that nothing
overflows. Two results are not of this kind and stand at the end: the exponential of what is not
above zero is at most one, and a sum with a small term overflows only if the large one has. The
gap below the limit is what makes room for the small term.
-/

set_option autoImplicit false

namespace RetirementVault.Binary

theorem roundHalfEven_le {num den n : Nat} (hden : 0 < den) (h : num ≤ n * den) :
    roundHalfEven num den ≤ n := by
  rcases Nat.lt_or_eq_of_le h with hlt | rfl
  · exact roundHalfEven_le_of_lt ((Nat.div_lt_iff_lt_mul hden).mpr hlt)
  · exact Nat.le_of_eq (roundHalfEven_mul hden n)

/-- Rounding does not pass a power of two. -/
theorem Format.roundUnits_le_two_pow (F : Format) {num den k : Nat} (hden : 0 < den)
    (h : num ≤ 2 ^ k * den) : F.roundUnits num den ≤ 2 ^ k := by
  -- The bits beyond the precision are fewer than the bits of the power.
  have hspare : F.spareBits (num / den) ≤ k := by
    have hquotient : num / den < 2 ^ (k + 1) := by
      refine Nat.lt_of_le_of_lt (Nat.div_le_of_le_mul (Nat.mul_comm _ _ ▸ h)) ?_
      exact Nat.pow_lt_pow_right (by decide) (Nat.lt_succ_self k)
    have hp := F.precision_pos
    unfold spareBits
    rcases Nat.eq_zero_or_pos (num / den) with hzero | hpos
    · rw [hzero]
      simp only [Nat.log2_zero]
      omega
    · have hlog := (Nat.log2_lt (Nat.ne_of_gt hpos)).mpr hquotient
      omega
  have hsplit : 2 ^ k = 2 ^ (k - F.spareBits (num / den)) * 2 ^ F.spareBits (num / den) := by
    rw [← Nat.pow_add, Nat.sub_add_cancel hspare]
  unfold roundUnits
  rw [hsplit] at h ⊢
  refine Nat.mul_le_mul_right _ (roundHalfEven_le ?_ ?_)
  · exact Nat.mul_pos hden (Nat.two_pow_pos _)
  · rwa [Nat.mul_assoc, Nat.mul_comm (2 ^ _) den] at h

theorem roundHalfEven_le_of_lt_half {num den n : Nat} (h : 2 * num < (2 * n + 1) * den) :
    roundHalfEven num den ≤ n := by
  have hden : 0 < den := Nat.pos_of_ne_zero fun hzero => by simp [hzero] at h
  have hsplit := Nat.div_add_mod num den
  rcases Nat.lt_or_ge (num / den) n with hlt | hge
  · exact roundHalfEven_le_of_lt hlt
  · have hle : num / den ≤ n := by
      refine Nat.lt_succ_iff.mp ((Nat.div_lt_iff_lt_mul hden).mpr ?_)
      rw [Nat.succ_mul]
      rw [Nat.add_mul, Nat.mul_assoc] at h
      omega
    have hquotient : num / den = n := Nat.le_antisymm hle hge
    have hrest : 2 * (num % den) < den := by
      rw [hquotient] at hsplit
      rw [Nat.add_mul, Nat.mul_assoc, Nat.mul_comm n] at h
      omega
    unfold roundHalfEven
    rw [hquotient]
    exact Nat.le_of_eq (if_pos hrest)

/-- What is below the limit by more than half the last gap is not rounded up to it. -/
theorem Format.roundUnits_lt_limit {F : Format} {num k : Nat} (hrange : F.range = k + 1)
    (h : num + 2 ^ k < F.limit) : F.roundUnits num 1 < F.limit := by
  have hlt : num < 2 ^ (F.precision + F.range) := Nat.lt_of_le_of_lt (Nat.le_add_right _ _) h
  have hlog : num.log2 < F.precision + F.range := by
    rcases Nat.eq_zero_or_pos num with rfl | hpos
    · rw [Nat.log2_zero]
      omega
    · exact (Nat.log2_lt (Nat.ne_of_gt hpos)).mpr hlt
  rcases Nat.lt_or_ge num (2 ^ (F.precision + k)) with hsmall | hlarge
  · refine Nat.lt_of_le_of_lt (F.roundUnits_le_two_pow Nat.one_pos (k := F.precision + k) ?_)
      (Nat.pow_lt_pow_right (by decide) (by omega))
    rw [Nat.mul_one]
    exact Nat.le_of_lt hsmall
  -- In the top binade there are `2 ^ precision` significands, and the last is not passed.
  · have hspare : F.spareBits num = k + 1 := by
      have hpos : num ≠ 0 := Nat.ne_of_gt (Nat.lt_of_lt_of_le (Nat.two_pow_pos _) hlarge)
      have hge := (Nat.le_log2 hpos).mpr hlarge
      unfold spareBits
      omega
    have hone : 1 ≤ 2 ^ F.precision := Nat.two_pow_pos _
    have hround : roundHalfEven num (2 ^ (k + 1)) ≤ 2 ^ F.precision - 1 := by
      refine roundHalfEven_le_of_lt_half ?_
      have hlimit : F.limit = 2 ^ F.precision * (2 * 2 ^ k) := by
        rw [limit, hrange, Nat.pow_add, Nat.pow_succ, Nat.mul_comm (2 ^ k)]
      rw [hlimit] at h
      obtain ⟨m, hm⟩ : ∃ m, 2 ^ F.precision = m + 1 := ⟨2 ^ F.precision - 1, by omega⟩
      rw [hm, Nat.add_mul] at h
      rw [hm, Nat.add_sub_cancel, Nat.pow_succ, Nat.mul_comm (2 ^ k), Nat.add_mul, Nat.mul_assoc]
      omega
    unfold roundUnits limit
    rw [Nat.div_one, hspare, hrange, Nat.pow_add]
    dsimp only
    rw [Nat.one_mul]
    exact Nat.mul_lt_mul_of_pos_right (by omega) (Nat.two_pow_pos _)

/-- The last count that fits is a whole gap below the limit. -/
theorem Format.add_gap_le_limit {F : Format} {units : Nat} (hfits : F.Fits units)
    (hsmall : units < F.limit) : units + 2 ^ F.range ≤ F.limit := by
  have hp := F.precision_pos
  rcases Nat.lt_or_ge units (2 ^ (F.precision + F.range - 1)) with hlow | hhigh
  · have hdouble : F.limit = 2 ^ (F.precision + F.range - 1) * 2 := by
      rw [limit, ← Nat.pow_succ]
      congr 1
      omega
    have hgap : 2 ^ F.range ≤ 2 ^ (F.precision + F.range - 1) :=
      Nat.pow_le_pow_right (by decide) (by omega)
    omega
  · have hne : units ≠ 0 := Nat.ne_of_gt (Nat.lt_of_lt_of_le (Nat.two_pow_pos _) hhigh)
    have hspare : F.spareBits units = F.range := by
      have hge := (Nat.le_log2 hne).mpr hhigh
      have hlt := (Nat.log2_lt hne).mpr hsmall
      unfold spareBits
      omega
    unfold Fits at hfits
    rw [hspare] at hfits
    obtain ⟨n, rfl⟩ := hfits
    rw [limit, Nat.pow_add, Nat.mul_comm _ n] at hsmall ⊢
    have hn : n < 2 ^ F.precision := Nat.lt_of_mul_lt_mul_right hsmall
    calc n * 2 ^ F.range + 2 ^ F.range
        = (n + 1) * 2 ^ F.range := (Nat.succ_mul ..).symm
      _ ≤ 2 ^ F.precision * 2 ^ F.range := Nat.mul_le_mul_right _ hn

namespace Value

variable {F : Format}

/-- A finite value of at most so many units, the number given by its logarithm. -/
def AtMost (v : Value F) (k : Nat) : Prop :=
  ∃ negative units fits small, v = .finite negative units fits small ∧ units ≤ 2 ^ k

theorem AtMost.isFinite {v : Value F} {k : Nat} (h : v.AtMost k) : v.isFinite = true := by
  obtain ⟨_, _, _, _, rfl, -⟩ := h
  rfl

theorem ofUnits_atMost {negative : Bool} {num den k : Nat} (hden : 0 < den)
    (h : num ≤ 2 ^ k * den) (hk : k < F.precision + F.range) :
    (ofUnits F negative num den).AtMost k := by
  have hround := F.roundUnits_le_two_pow hden h
  have hsmall : F.roundUnits num den < F.limit :=
    Nat.lt_of_le_of_lt hround (Nat.pow_lt_pow_right (by decide) hk)
  unfold ofUnits
  rw [dif_pos hsmall]
  exact ⟨_, _, _, _, rfl, hround⟩

theorem ofRatio_atMost {negative : Bool} {num den k : Nat} (hden : 0 < den)
    (h : num ≤ 2 ^ k * den) (hk : k + F.scale < F.precision + F.range) :
    (ofRatio F negative num den).AtMost (k + F.scale) := by
  refine ofUnits_atMost hden ?_ hk
  calc num * 2 ^ F.scale
      ≤ 2 ^ k * den * 2 ^ F.scale := Nat.mul_le_mul_right _ h
    _ = 2 ^ (k + F.scale) * den := by rw [Nat.mul_right_comm, ← Nat.pow_add]

theorem ofNat_atMost {n k : Nat} (h : n ≤ 2 ^ k) (hk : k + F.scale < F.precision + F.range) :
    (ofNat F n).AtMost (k + F.scale) :=
  ofRatio_atMost (by decide) (by rwa [Nat.mul_one]) hk

theorem mul_atMost {v w : Value F} {j k m : Nat} (hv : v.AtMost j) (hw : w.AtMost k)
    (hjk : j + k ≤ m + F.scale) (hm : m < F.precision + F.range) : (v * w).AtMost m := by
  obtain ⟨s, u, _, _, rfl, hu⟩ := hv
  obtain ⟨t, u', _, _, rfl, hu'⟩ := hw
  refine ofUnits_atMost (Nat.two_pow_pos _) ?_ hm
  calc u * u'
      ≤ 2 ^ j * 2 ^ k := Nat.mul_le_mul hu hu'
    _ = 2 ^ (j + k) := (Nat.pow_add ..).symm
    _ ≤ 2 ^ (m + F.scale) := Nat.pow_le_pow_right (by decide) hjk
    _ = 2 ^ m * 2 ^ F.scale := Nat.pow_add ..

theorem ofUnits_le_zero (num den : Nat) : (ofUnits F true num den).le (zero F false) = true := by
  unfold ofUnits
  split <;> simp [le, lt, zero, signed]

/-- The exponential of what is not above zero is at most one. -/
theorem exp_atMost {v : Value F} (h : v.le (zero F false) = true)
    (hscale : F.scale < F.precision + F.range) : (exp v).AtMost F.scale := by
  have hzero : (zero F false).AtMost F.scale := ⟨_, _, _, _, rfl, Nat.zero_le _⟩
  have hone : ∀ num den : Nat, 0 < den → num ≤ den →
      (ofRatio F false num den).AtMost F.scale := by
    intro num den hden hle
    have hratio : (ofRatio F false num den).AtMost (0 + F.scale) :=
      ofRatio_atMost hden (by rwa [Nat.pow_zero, Nat.one_mul]) (by omega)
    rwa [Nat.zero_add] at hratio
  have hword := Nat.two_pow_pos (workingBits F)
  cases v with
  | nan => exact absurd h (by simp [le])
  | infinite negative =>
    cases negative with
    | true => exact hzero
    | false => exact absurd h (by simp [le, lt, zero])
  | finite negative u fits small =>
    unfold exp
    cases negative with
    | true =>
      dsimp only
      split
      · exact hzero
      · have hseries := le_expSeries F u (2 ^ F.scale)
        exact hone _ _ (Nat.lt_of_lt_of_le hword hseries) hseries
    | false =>
      -- Level with zero, it is zero, and the sum is one.
      have hu : u = 0 := by simpa [le, lt, zero, signed] using h
      have hcutoff : ¬ expCutoff F * 2 ^ F.scale ≤ 0 :=
        Nat.not_le_of_gt (Nat.mul_pos (Nat.succ_pos _) (Nat.two_pow_pos _))
      subst hu
      dsimp only
      rw [if_neg hcutoff, if_neg (by simp), expSeries_zero]
      exact hone _ _ hword (Nat.le_refl _)

/-- **A sum with a small term overflows only if the large one has.** -/
theorem isFinite_add {v w : Value F} {j : Nat} (hv : v.isFinite = true) (hw : w.AtMost j)
    (hj : j + 2 ≤ F.range) : (v + w).isFinite = true := by
  cases v with
  | nan | infinite => exact absurd hv (by simp [isFinite])
  | finite s u hfits hsmall =>
    obtain ⟨t, x, _, _, rfl, hx⟩ := hw
    obtain ⟨k, hk⟩ : ∃ k, F.range = k + 1 := ⟨F.range - 1, by omega⟩
    have hgap := Format.add_gap_le_limit hfits hsmall
    have hpow : 2 ^ j < 2 ^ k := Nat.pow_lt_pow_right (by decide) (by omega)
    rw [hk, Nat.pow_succ] at hgap
    have hsize : (signed s u + signed t x).natAbs ≤ u + x := by
      unfold signed
      split <;> split <;> omega
    have hround := Format.roundUnits_lt_limit hk
      (show (signed s u + signed t x).natAbs + 2 ^ k < F.limit by omega)
    show (add _ _).isFinite = true
    unfold add
    dsimp only
    split
    · rfl
    · unfold ofUnits
      rw [dif_pos hround]
      rfl

end Value
end RetirementVault.Binary
