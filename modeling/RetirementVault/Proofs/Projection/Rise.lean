import RetirementVault.Proofs.Binary.Order
import RetirementVault.Proofs.Projection.Shape
import RetirementVault.Proofs.Projection.Shift

/-!
# A curve that is pulled earlier is not lowered

No sample loses by a shift: what it gains is not below zero, and where others land at the same age
the largest amount stays. And the top of the curve gains the most that there is to gain. Nothing can
end up above the largest amount with the whole gain, since neither part of another sum is larger;
and the sample at the peak gets there, as nothing lies between it and the peak.

Not-a-number would spoil the comparisons, so the amounts are numbers, infinities included.
-/

set_option autoImplicit false

namespace RetirementVault.Projection

open Binary

/-! ## The gain -/

/-- What an amount at the peak gains, and none gains more. -/
def fullBoost (years : UInt32) : Single :=
  Value.ofRatio binary32 false 4 100 * Value.ofNat binary32 years.toNat

theorem isFinite_fullBoost (years : UInt32) : (fullBoost years).isFinite = true :=
  (fullBoost_atMost years).isFinite

theorem isFinite_boost (years distance : UInt32) : (boost years distance).isFinite = true :=
  (boost_atMost years distance).isFinite

theorem sign_fullBoost (years : UInt32) : (fullBoost years).sign = false :=
  Value.sign_mul (Value.sign_ofRatio _ _ _) (Value.sign_ofRatio _ _ _)

theorem sign_boost (years distance : UInt32) : (boost years distance).sign = false :=
  Value.sign_mul (sign_fullBoost years) (Value.sign_exp _)

theorem boost_at_peak (years : UInt32) : boost years 0 = fullBoost years := by
  have hpeak : -Value.ofNat binary32 (0 : UInt32).toNat / decayYears
      = Value.zero binary32 true := by decide +kernel
  rw [boost, hpeak, Value.exp_zero (by decide)]
  exact Value.mul_one (by decide) (isFinite_fullBoost years)

theorem boost_le_fullBoost (years distance : UInt32) :
    (boost years distance).le (fullBoost years) = true := by
  have hdecay := Value.exp_atMost (neg_years_le_zero distance) (by decide)
  refine (Value.le_iff_place (Value.ne_nan_of_isFinite (isFinite_boost years distance))
    (Value.ne_nan_of_isFinite (isFinite_fullBoost years))).mpr ?_
  exact Value.place_mul_le (isFinite_fullBoost years) (sign_fullBoost years) hdecay
    (Value.sign_exp _)

/-! ## Largest amounts -/

namespace Series

/-- An amount of a series that no other is above. -/
def IsTop (top : Single) (s : Series) : Prop :=
  (∃ p ∈ s, p.btc = top) ∧ ∀ p ∈ s, p.btc.le top = true

instance (top : Single) (s : Series) : Decidable (IsTop top s) :=
  inferInstanceAs (Decidable (_ ∧ _))

/-- A scan ends at a largest amount. -/
theorem ScansTo.largest {best top : Sample} {rest : Series} (h : ScansTo best rest top)
    (hnan : ∀ p ∈ best :: rest, p.btc ≠ .nan) :
    top ∈ best :: rest ∧ ∀ p ∈ best :: rest, p.btc.le top.btc = true := by
  induction h with
  | ends best => simpa using Value.le_refl (hnan best (by simp))
  | @moves best p top rest hlt _ ih =>
    obtain ⟨hmem, hle⟩ := ih fun q hq => hnan q (List.mem_cons_of_mem best hq)
    refine ⟨List.mem_cons_of_mem best hmem, ?_⟩
    intro q hq
    rcases List.mem_cons.mp hq with rfl | hq
    · exact Value.le_trans (Value.le_of_lt hlt) (hle p (by simp))
    · exact hle q hq
  | @stays best p top rest hlt _ ih =>
    have hbest := hnan best (by simp)
    have hp := hnan p (by simp)
    obtain ⟨hmem, hle⟩ := ih fun q hq => hnan q (by
      rcases List.mem_cons.mp hq with rfl | hq
      · simp
      · simp [hq])
    constructor
    · rcases List.mem_cons.mp hmem with rfl | hmem
      · simp
      · simp [hmem]
    · intro q hq
      rcases List.mem_cons.mp hq with rfl | hq
      · exact hle q (by simp)
      · rcases List.mem_cons.mp hq with rfl | hq
        · exact Value.le_trans (Value.le_of_not_lt hbest hp (by simp [hlt])) (hle best (by simp))
        · exact hle q (by simp [hq])

/-! ## The amounts that land -/

section Landing

variable {s out : Series} {years least peak : UInt32}

theorem raised_eq (peak years : UInt32) (p : Sample) :
    raised peak years p = p.btc + boost years (ageDifference peak p.age) :=
  (congrFun (shiftedBtc_eq_raised peak years) p).symm

theorem raised_at_peak (years : UInt32) (p : Sample) :
    raised p.age years p = p.btc + fullBoost years := by
  have hpeak : ageDifference p.age p.age = 0 := by simp [ageDifference]
  rw [raised_eq, hpeak, boost_at_peak]

theorem raised_ne_nan {p : Sample} (hp : p.btc ≠ .nan) : raised peak years p ≠ .nan := by
  rw [raised_eq]
  exact Value.add_ne_nan hp (isFinite_boost _ _)

theorem le_raised {p : Sample} (hp : p.btc ≠ .nan) : p.btc.le (raised peak years p) = true := by
  rw [raised_eq]
  exact Value.le_add_of_nonneg hp (isFinite_boost _ _) (Value.place_nonneg (sign_boost _ _))

theorem raised_le {p : Sample} {top : Single} (htop : p.btc.le top = true) :
    (raised peak years p).le (top + fullBoost years) = true := by
  rw [raised_eq]
  exact Value.add_le_add htop (boost_le_fullBoost _ _) (isFinite_boost _ _)
    (isFinite_fullBoost years)

theorem raised_ne_negative_zero (p : Sample) : raised peak years p ≠ Value.zero binary32 true := by
  rw [raised_eq]
  exact Value.add_ne_negative_zero (sign_boost _ _)

theorem mem_landed {age : Nat} {btc : Single} :
    btc ∈ landed s years least peak age ↔
      ∃ p ∈ s, landing least years p.age = age ∧ raised peak years p = btc := by
  simp [landed, and_assoc]

variable (h : IsPulled s years least peak out) (hnan : ∀ p ∈ s, p.btc ≠ .nan)

include h hnan

theorem IsPulled.largest_landed {q : Sample} (hq : q ∈ out) :
    q.btc ∈ landed s years least peak q.age.toNat ∧
      ∀ btc ∈ landed s years least peak q.age.toNat, btc.le q.btc = true := by
  refine selects_max.reduce? (h.amounts q hq) ?_
  intro btc hbtc
  obtain ⟨p, hp, -, rfl⟩ := mem_landed.mp hbtc
  exact raised_ne_nan (hnan p hp)

/-- Every amount of a series that is pulled earlier is that of a sample, raised. -/
theorem IsPulled.exists_raised {q : Sample} (hq : q ∈ out) :
    ∃ p ∈ s, raised peak years p = q.btc := by
  obtain ⟨p, hp, -, hraised⟩ := mem_landed.mp (h.largest_landed hnan hq).1
  exact ⟨p, hp, hraised⟩

/-- At the age where a sample lands there is no less than it lands with. -/
theorem IsPulled.exists_raised_le {p : Sample} (hp : p ∈ s) :
    ∃ q ∈ out, q.age.toNat = landing least years p.age ∧
      (raised peak years p).le q.btc = true := by
  obtain ⟨q, hq, hage⟩ := (h.ages _).mpr ⟨p, hp, rfl⟩
  refine ⟨q, hq, hage, (h.largest_landed hnan hq).2 _ ?_⟩
  exact mem_landed.mpr ⟨p, hp, hage.symm, rfl⟩

end Landing

/-- Amounts that are level are the same, unless one of them is a negative zero. -/
theorem eq_of_le_of_le {a b : Single} (hab : a.le b = true) (hba : b.le a = true)
    (ha : a ≠ Value.zero binary32 true) (hb : b ≠ Value.zero binary32 true) : a = b :=
  Value.eq_of_place_eq (Value.ne_nan_of_le hab).1 (Value.ne_nan_of_le hab).2 ha hb
    (Int.le_antisymm (Value.place_le_of_le hab) (Value.place_le_of_le hba))

/-- The top of a series that is pulled earlier, from the sample at the peak, is that of the series
with the full boost, and nothing else is. -/
theorem IsPulled.isTop_iff {s out : Series} {years least : UInt32} {p : Sample} {top : Single}
    (h : IsPulled s years least p.age out) (hnan : ∀ p ∈ s, p.btc ≠ .nan) (hp : p ∈ s)
    (hpeak : ∀ q ∈ s, q.btc.le p.btc = true) (htop : IsTop top s) (btc : Single) :
    IsTop btc out ↔ btc = top + fullBoost years := by
  have hnonzero : top + fullBoost years ≠ Value.zero binary32 true :=
    Value.add_ne_negative_zero (sign_fullBoost years)
  have hbelow : ∀ q ∈ out, q.btc.le (top + fullBoost years) = true := by
    intro q hq
    obtain ⟨r, hr, hraised⟩ := h.exists_raised hnan hq
    rw [← hraised]
    exact raised_le (htop.2 r hr)
  have hnonzero' : ∀ q ∈ out, q.btc ≠ Value.zero binary32 true := by
    intro q hq
    obtain ⟨r, hr, hraised⟩ := h.exists_raised hnan hq
    rw [← hraised]
    exact raised_ne_negative_zero r
  -- The sample at the peak gets all the way up.
  obtain ⟨q, hq, hreached⟩ : ∃ q ∈ out, q.btc = top + fullBoost years := by
    obtain ⟨q, hq, -, hge⟩ := h.exists_raised_le hnan hp
    obtain ⟨r, hr, rfl⟩ := htop.1
    refine ⟨q, hq, eq_of_le_of_le (hbelow q hq) ?_ (hnonzero' q hq) hnonzero⟩
    rw [raised_at_peak] at hge
    have hfull := isFinite_fullBoost years
    exact Value.le_trans (Value.add_le_add (hpeak r hr)
      (Value.le_refl (Value.ne_nan_of_isFinite hfull)) hfull hfull) hge
  constructor
  · rintro ⟨⟨r, hr, rfl⟩, hle⟩
    exact eq_of_le_of_le (hbelow r hr) (hreached ▸ hle q hq) (hnonzero' r hr) hnonzero
  · rintro rfl
    exact ⟨⟨q, hq, hreached⟩, hbelow⟩

/-- **A curve pulled earlier is nowhere lower, and its top is higher by exactly the full boost.** At
the age where a sample lands there is an amount that is not below its own; and the one largest
amount is the largest of the series, whichever of level ones, with the boost of the peak. -/
theorem top_rises_by_fullBoost (first : Sample) (rest : Series) {years : UInt32}
    (hnan : ∀ p ∈ first :: rest, p.btc ≠ .nan) (hyears : years ≠ 0) :
    (∃ least, IsLeastAge least (first :: rest) ∧
      ∀ p ∈ first :: rest, ∃ q ∈ shift (first :: rest) years,
        q.age.toNat = landing least years p.age ∧ p.btc.le q.btc = true) ∧
    (∃ top, IsTop top (first :: rest)) ∧
    ∀ top, IsTop top (first :: rest) → ∀ btc,
      IsTop btc (shift (first :: rest) years) ↔ btc = top + fullBoost years := by
  have hpulled := isPulled_shift first rest hyears
  obtain ⟨hpeak, hlargest⟩ := (scansTo_foldl_higher first rest).largest hnan
  refine ⟨⟨_, isLeastAge_leastAge first rest, ?_⟩, ⟨_, ⟨_, hpeak, rfl⟩, hlargest⟩, ?_⟩
  · intro p hp
    obtain ⟨q, hq, hage, hge⟩ := hpulled.exists_raised_le hnan hp
    exact ⟨q, hq, hage, Value.le_trans (le_raised (hnan p hp)) hge⟩
  · intro top htop
    exact hpulled.isTop_iff hnan hpeak hlargest htop

/-- Two samples level at the top, of which the later one lies past the peak, and an infinity below
everything that another sample lands on. -/
theorem top_rises_by_fullBoost_of_two_tops :
    let two : Single := Value.ofNat binary32 2
    let first : Sample := { age := 30, btc := .infinite true }
    let rest : Series :=
      [{ age := 33, btc := Value.ofRatio binary32 false 1 2 }, { age := 40, btc := two },
        { age := 45, btc := two }]
    (∀ p ∈ first :: rest, p.btc ≠ .nan) ∧ (4 : UInt32) ≠ 0 ∧
      (∃ q ∈ shift (first :: rest) 4, q.btc = two + fullBoost 4) ∧
        ∀ q ∈ shift (first :: rest) 4, q.btc.le (two + fullBoost 4) = true := by
  intro two first rest
  have hnan : ∀ p ∈ first :: rest, p.btc ≠ .nan := by decide +kernel
  have hyears : (4 : UInt32) ≠ 0 := by decide
  have htop : IsTop two (first :: rest) := by decide +kernel
  obtain ⟨-, -, hrises⟩ := top_rises_by_fullBoost first rest hnan hyears
  obtain ⟨hreached, hbelow⟩ := (hrises two htop (two + fullBoost 4)).mpr rfl
  exact ⟨hnan, hyears, hreached, hbelow⟩

end Series
end RetirementVault.Projection
