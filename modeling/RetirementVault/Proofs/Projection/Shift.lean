import RetirementVault.Projection.Shift
import RetirementVault.Proofs.Binary.Size

/-!
# No amount overflows when a curve is pulled earlier

A shift touches amounts in two ways: it adds a boost to each, and of those that meet at one age it
keeps one. The boost is small whatever the years and the distance: a year count has 32 bits, and the
factors for a year and for the distance are at most one (`boost_atMost`). What a 32-bit value cannot
hold starts a whole gap above its last finite value, and half that gap is far more than a boost. So
**the amounts of a shifted curve are finite if those of the curve are** (`isFinite_shift`).

What the shift makes of an infinity is another infinity or nothing, where a larger amount stays.
-/

set_option autoImplicit false

namespace RetirementVault.Projection

open Binary

/-! ## The boost -/

/-- The years before the peak, in units of the decay, are not above zero once their sign is
turned. -/
theorem neg_years_le_zero (distance : UInt32) :
    (-Value.ofNat binary32 distance.toNat / decayYears).le (Value.zero binary32 false) = true := by
  have hdecay : ∃ units fits small, decayYears = .finite false units fits small ∧ units ≠ 0 :=
    ⟨8 * 2 ^ 149, by decide, by decide, rfl, by decide⟩
  obtain ⟨units, fits, small, hdecay, hunits⟩ := hdecay
  rw [hdecay, Value.ofNat, Value.ofRatio, Value.ofUnits]
  split
  · show (Value.div _ _).le _ = true
    simp only [Value.neg, Neg.neg, Value.div, if_neg hunits]
    exact Value.ofUnits_le_zero _ _
  · rfl

/-- What an amount at the peak gains. -/
theorem fullBoost_atMost (years : UInt32) :
    (boostPerYear * Value.ofNat binary32 years.toNat).AtMost (32 + binary32.scale) := by
  have hyear : boostPerYear.AtMost binary32.scale := by
    have hratio : boostPerYear.AtMost (0 + binary32.scale) :=
      Value.ofRatio_atMost (by decide) (by decide) (by decide)
    rwa [Nat.zero_add] at hratio
  have hyears : (Value.ofNat binary32 years.toNat).AtMost (32 + binary32.scale) :=
    Value.ofNat_atMost (Nat.le_of_lt years.toNat_lt) (by decide)
  exact Value.mul_atMost hyear hyears (by decide) (by decide)

/-- A boost is at most `2 ^ 32`: a year count has 32 bits, and both factors are at most one. -/
theorem boost_atMost (years distance : UInt32) :
    (boost years distance).AtMost (32 + binary32.scale) := by
  have hdecay := Value.exp_atMost (neg_years_le_zero distance) (by decide)
  exact Value.mul_atMost (fullBoost_atMost years) hdecay (by decide) (by decide)

theorem isFinite_shiftedBtc {s : Sample} (h : s.btc.isFinite = true) (peak years : UInt32) :
    (Series.shiftedBtc peak years s).isFinite = true :=
  Value.isFinite_add h (boost_atMost years _) (by decide)

/-! ## Amounts that meet -/

/-- What holds of an amount and of those it is put among holds of those that stay. -/
theorem forall_insertLargest {P : Single → Prop} {age : UInt32} {btc : Single} {out : Series}
    (hbtc : P btc) (hout : ∀ p ∈ out, P p.btc) : ∀ p ∈ insertLargest age btc out, P p.btc := by
  induction out with
  | nil =>
    intro p hp
    rw [List.mem_singleton.mp hp]
    exact hbtc
  | cons s rest ih =>
    have hs := hout s (by simp)
    have hrest := ih fun p hp => hout p (by simp [hp])
    unfold insertLargest
    split
    · intro p hp
      rcases List.mem_cons.mp hp with rfl | hp
      · exact hbtc
      · exact hout p hp
    · split
      · intro p hp
        rcases List.mem_cons.mp hp with rfl | hp
        · show P (s.btc.max btc)
          rcases s.btc.max_eq_or btc with hkept | hnew
          · rwa [hkept]
          · rwa [hnew]
        · exact hout p (by simp [hp])
      · intro p hp
        rcases List.mem_cons.mp hp with rfl | hp
        · exact hs
        · exact hrest p hp

namespace Series

/-- What holds of every amount raised holds of every amount of the shifted series. -/
theorem forall_foldl_insertLargest {P : Single → Prop} {age : Sample → UInt32}
    {btc : Sample → Single} {s out : Series} (hs : ∀ p ∈ s, P (btc p)) (hout : ∀ p ∈ out, P p.btc) :
    ∀ p ∈ s.foldl (fun out p => insertLargest (age p) (btc p) out) out, P p.btc := by
  induction s generalizing out with
  | nil => exact hout
  | cons first rest ih =>
    refine ih (fun p hp => hs p (by simp [hp])) ?_
    exact forall_insertLargest (hs first (by simp)) hout

/-- **The amounts of a shifted curve are finite if those of the curve are.** -/
theorem isFinite_shift {s : Series} (h : ∀ p ∈ s, p.btc.isFinite = true) (years : UInt32) :
    ∀ p ∈ s.shift years, p.btc.isFinite = true := by
  unfold shift
  split
  · exact h
  · next first rest =>
    split
    · exact h
    · refine forall_foldl_insertLargest (P := fun btc => btc.isFinite = true) ?_ (by simp)
      exact fun p hp => isFinite_shiftedBtc (h p hp) _ years

end Series
end RetirementVault.Projection
