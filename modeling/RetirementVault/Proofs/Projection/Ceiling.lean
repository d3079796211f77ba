import RetirementVault.Proofs.Projection.Axes

/-!
# The amount axis of a chart

The amount axis ends at the largest amount drawn, times eleven tenths. That leaves room above an
amount that is not below zero. Below zero the factor goes the other way: the axis ends lower than
the amount it was made from, and that one point, at least, is cut off.

So the axis holds all amounts exactly if its largest is not below zero, but for two exceptions at
the ends of the format (`le_mul_headroom_iff`). Minus infinity has nothing below it. And of the
least values below zero a tenth is less than half a unit, so that the factor is rounded away: that
is so up to four units and no further, since the tenth of five units is rounded up.
-/

set_option autoImplicit false

namespace RetirementVault.Projection

open Binary

/-! ## An amount and the room above it -/

/-- The factor for the headroom is not less than eleven tenths, and what it makes of the first
counts of units. -/
theorem headroom_eq : ∃ units fits small, headroom = .finite false units fits small ∧
    11 * 2 ^ binary32.scale ≤ 10 * units ∧
    ∀ u < 10, binary32.nearest (u * units) (2 ^ binary32.scale) ≤ u ↔ u ≤ 4 :=
  ⟨784986248002396280628980456365952696598921216, by decide +kernel, by decide +kernel,
    by decide +kernel, by decide +kernel, by decide +kernel⟩

/-- A tenth of ten units or more is no less than the step to the next value. -/
theorem ten_steps_le {u : Nat} (h : 10 ≤ u) : 10 * 2 ^ binary32.spareBits u ≤ u := by
  rcases Nat.eq_zero_or_pos (binary32.spareBits u) with hzero | hpos
  · rw [hzero]
    omega
  · have hlog : u.log2 = 23 + binary32.spareBits u := by
      unfold Format.spareBits at hpos ⊢
      have hprecision : binary32.precision = 24 := rfl
      omega
    calc 10 * 2 ^ binary32.spareBits u
        ≤ 2 ^ 23 * 2 ^ binary32.spareBits u := Nat.mul_le_mul_right _ (by decide)
      _ = 2 ^ u.log2 := by rw [hlog, Nat.pow_add]
      _ ≤ u := Nat.log2_self_le (by omega)

/-- A count of units is not raised by the headroom only if a tenth of it is rounded away. -/
theorem nearest_headroom_le_iff {units : Nat} (hroom : 11 * 2 ^ binary32.scale ≤ 10 * units)
    (hfirst : ∀ u < 10, binary32.nearest (u * units) (2 ^ binary32.scale) ≤ u ↔ u ≤ 4) {u : Nat}
    (hfits : binary32.Fits u) (hsmall : u < binary32.limit) :
    binary32.nearest (u * units) (2 ^ binary32.scale) ≤ u ↔ u ≤ 4 := by
  rcases Nat.lt_or_ge u 10 with hlt | hge
  · exact hfirst u hlt
  · have hstep : (u + 2 ^ binary32.spareBits u) * 2 ^ binary32.scale ≤ u * units := by
      refine Nat.le_of_mul_le_mul_left (c := 10) ?_ (by decide)
      calc 10 * ((u + 2 ^ binary32.spareBits u) * 2 ^ binary32.scale)
          = (10 * u + 10 * 2 ^ binary32.spareBits u) * 2 ^ binary32.scale := by
            rw [← Nat.mul_assoc, Nat.mul_add]
        _ ≤ (10 * u + u) * 2 ^ binary32.scale :=
            Nat.mul_le_mul_right _ (Nat.add_le_add_left (ten_steps_le hge) _)
        _ = u * (11 * 2 ^ binary32.scale) := by
            rw [← Nat.succ_mul, Nat.mul_comm 11 u, Nat.mul_assoc]
        _ ≤ u * (10 * units) := Nat.mul_le_mul_left u hroom
        _ = 10 * (u * units) := Nat.mul_left_comm u 10 units
    have hraised := Format.lt_nearest hfits hsmall (Nat.two_pow_pos _) hstep
    omega

/-- **An amount is below its headroom exactly if it is not below zero**, or so little that its tenth
is rounded away, or as far as there is. -/
theorem le_mul_headroom_iff {top : Single} (h : top ≠ .nan) :
    top.le (top * headroom) = true ↔ top = .infinite true ∨ -4 ≤ top.place := by
  obtain ⟨units, fits, small, hheadroom, hroom, hfirst⟩ := headroom_eq
  have hone : 2 ^ binary32.scale ≤ units := by omega
  have hunits : units ≠ 0 := Nat.ne_of_gt (Nat.lt_of_lt_of_le (Nat.two_pow_pos _) hone)
  rw [hheadroom]
  cases top with
  | nan => exact absurd rfl h
  | infinite s =>
    have hproduct : (.infinite s : Single) * .finite false units fits small = .infinite s := by
      show (if units = 0 then _ else Value.infinite (s != false)) = _
      rw [if_neg hunits, Bool.bne_false]
    rw [hproduct, iff_true_intro (Value.le_refl h), true_iff]
    cases s with
    | true => exact .inl rfl
    | false =>
      have hnonneg : 0 ≤ (Value.infinite false : Single).place := Value.place_nonneg rfl
      exact .inr (by omega)
  | finite s u fits' small' =>
    have hproduct : (.finite s u fits' small' : Single) * .finite false units fits small
        = Value.ofUnits binary32 (s != false) (u * units) (2 ^ binary32.scale) :=
      Value.finite_mul_finite
    rw [Value.le_iff_place h (hproduct ▸ Value.ofUnits_ne_nan _ _ _)]
    cases s with
    | false =>
      have hraised : (Value.finite false u fits' small').place
          ≤ (Value.finite false u fits' small' * .finite false units fits small).place :=
        Value.le_place_mul rfl rfl hone
      have hnonneg : 0 ≤ (Value.finite false u fits' small').place := Value.place_nonneg rfl
      rw [iff_true_intro hraised, true_iff]
      exact .inr (by omega)
    | true =>
      have hcut := nearest_headroom_le_iff hroom hfirst fits' small'
      rw [hproduct, Value.place_ofUnits]
      simp only [Value.place, Bool.bne_false, signed_true, reduceCtorEq, false_or]
      omega

/-! ## The bound of the axis -/

namespace Curves

/-- The largest amount of a chart. -/
def IsTop (c : Curves) (top : Single) : Prop :=
  (∃ s ∈ c.all, ∃ q ∈ s, q.y = top) ∧ ∀ s ∈ c.all, ∀ q ∈ s, q.y.le top = true

end Curves

/-- An amount axis that reaches up to all points of a chart. -/
def Bounds.HoldsAmounts (b : Bounds) (c : Curves) : Prop :=
  ∀ s ∈ c.all, ∀ q ∈ s, q.y.le b.maxBtc = true

instance (b : Bounds) (c : Curves) : Decidable (b.HoldsAmounts c) :=
  inferInstanceAs (Decidable (∀ s ∈ c.all, ∀ q ∈ s, q.y.le b.maxBtc = true))

/-- The axis holds all amounts if it holds the largest one. -/
theorem Curves.holdsAmounts_iff {c : Curves} {b : Bounds} (hb : c.bounds = some b)
    (hnan : ∀ s ∈ c.all, ∀ q ∈ s, q.y ≠ .nan) :
    ∃ top, c.IsTop top ∧ b.maxBtc = top * headroom ∧
      (b.HoldsAmounts c ↔ top = .infinite true ∨ -4 ≤ top.place) := by
  obtain ⟨-, -, top, htop, hmax⟩ := bounds_eq_some_iff.mp hb
  have hnumbers : ∀ y ∈ c.all.flatten.map Point.y, y ≠ .nan := by
    intro y hy
    obtain ⟨s, hs, q, hq, rfl⟩ := mem_amounts.mp hy
    exact hnan s hs q hq
  obtain ⟨hdrawn, hbelow⟩ := selects_max.reduce? htop hnumbers
  have hle : ∀ s ∈ c.all, ∀ q ∈ s, q.y.le top = true :=
    fun s hs q hq => hbelow _ (mem_amounts.mpr ⟨s, hs, q, hq, rfl⟩)
  obtain ⟨s, hs, q, hq, rfl⟩ := mem_amounts.mp hdrawn
  refine ⟨q.y, ⟨⟨s, hs, q, hq, rfl⟩, hle⟩, hmax, ?_⟩
  rw [← le_mul_headroom_iff (hnan s hs q hq), Bounds.HoldsAmounts, hmax]
  exact ⟨fun hall => hall s hs q hq, fun hroom r hr p hp => Value.le_trans (hle r hr p hp) hroom⟩

/-! ## The chart of a plan -/

namespace Plan

/-- **The amount axis of a chart holds all its points exactly if not all of them are below zero**,
but for the amounts next to zero and minus infinity. -/
theorem amounts_held_iff_top (p : Plan) (adjustment : Int) (hhistory : p.history ≠ [])
    (hnan : ∀ t ∈ p.series, ∀ r ∈ t, r.btc ≠ .nan) :
    ∃ c b top, p.curves adjustment = some c ∧ c.bounds = some b ∧ c.IsTop top ∧
      b.maxBtc = top * headroom ∧
      (b.HoldsAmounts c ↔ top = .infinite true ∨ -4 ≤ top.place) := by
  obtain ⟨c, hc⟩ : ∃ c, p.curves adjustment = some c :=
    Option.ne_none_iff_exists'.mp fun h => hhistory (curves_eq_none_iff.mp h)
  obtain ⟨last, hlast, hdraws⟩ := curves_eq_some_iff.mp hc
  obtain ⟨b, hb⟩ := hdraws.exists_bounds
  have hnumbers : ∀ s ∈ c.all, ∀ q ∈ s, q.y ≠ .nan := by
    intro s hs q hq
    obtain ⟨t, ht, r, hr, rfl⟩ := hdraws.exists_sample hlast hs hq
    exact hnan t ht r hr
  obtain ⟨top, htop, hmax, hholds⟩ := Curves.holdsAmounts_iff hb hnumbers
  exact ⟨c, b, top, hc, hb, htop, hmax, hholds⟩

/-- Nothing but amounts below zero, the largest of them four units: the axis just holds them. -/
theorem amounts_held_iff_top_at_four_units :
    let top : Single := Value.ofUnits binary32 true 4 1
    let p : Plan :=
      { currentAge := 30, lifeExpectancy := 90, base := [], expected := []
        added := [{ age := 31, btc := .infinite true }], removed := []
        history := [{ age := 30, btc := top }] }
    p.history ≠ [] ∧ (∀ t ∈ p.series, ∀ r ∈ t, r.btc ≠ .nan) ∧
      ∃ c b, p.curves 3 = some c ∧ c.bounds = some b ∧ b.HoldsAmounts c := by
  intro top p
  have hhistory : p.history ≠ [] := by decide
  have hnan : ∀ t ∈ p.series, ∀ r ∈ t, r.btc ≠ .nan := by decide +kernel
  obtain ⟨c, b, largest, hc, hb, hlargest, -, hholds⟩ := amounts_held_iff_top p 3 hhistory hnan
  refine ⟨hhistory, hnan, c, b, hc, hb, hholds.mpr (.inr ?_)⟩
  obtain ⟨last, hlast, hdraws⟩ := curves_eq_some_iff.mp hc
  have hdrawn : Sample.point { age := 30, btc := top } ∈ c.investment :=
    hdraws.investment.mem_iff.mpr ⟨_, by simp [p], rfl⟩
  have hinvestment : c.investment ∈ c.all := Curves.mem_all.mpr (.inr (.inr (.inl rfl)))
  have hfour : top.place = -4 := by decide +kernel
  have hle : top.le largest = true := hlargest.2 _ hinvestment _ hdrawn
  exact hfour ▸ Value.place_le_of_le hle

/-- Not every chart has its amounts on the axis: an only amount below zero is above its bound. -/
theorem amounts_may_lie_above_the_axis :
    ¬ ∀ (p : Plan) (adjustment : Int) (c : Curves) (b : Bounds), p.history ≠ [] →
      (∀ t ∈ p.series, ∀ r ∈ t, r.btc ≠ .nan) → p.curves adjustment = some c →
      c.bounds = some b → b.HoldsAmounts c := by
  intro hall
  let loss : Single := Value.ofInt binary32 (-1)
  let q : Point := { x := Value.ofNat binary32 30, y := loss }
  let p : Plan :=
    { currentAge := 30, lifeExpectancy := 90, base := [], expected := [], added := []
      removed := [], history := [{ age := 30, btc := loss }] }
  let c : Curves := { base := [], actual := [q], investment := [q], simulation := none }
  let b : Bounds := { minAge := q.x, maxAge := q.x, maxBtc := loss * headroom }
  have hnan : ∀ t ∈ p.series, ∀ r ∈ t, r.btc ≠ .nan := by decide +kernel
  have hc : p.curves 0 = some c := by decide +kernel
  have hb : c.bounds = some b := by decide +kernel
  exact absurd (hall p 0 c b (by decide) hnan hc hb) (by decide +kernel)

end Plan
end RetirementVault.Projection
