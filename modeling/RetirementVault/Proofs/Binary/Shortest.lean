import Mathlib.Data.List.DropRight
import RetirementVault.Binary.Shortest

/-!
# What a shortest decimal looks like

The search of `shortest` is left alone here: whichever grid it stops at, the decimal it answers with
is a positive number at the place of that grid (`onGrid?_eq_some`), because the interval around a
positive value does not reach down to zero. Two things follow for a reader of the decimal:

* its digits are digits, there is one, and the first is not zero (`normal_shortest`);
* its power of ten is bounded by that of the value (`exponent_shortest_le`). The bound is generous
  by the scale of the format, which is what it costs not to ask whether the search ever fails.
-/

set_option autoImplicit false

namespace RetirementVault.Binary

namespace Decimal

/-- A decimal whose digits are in order. -/
structure Normal (d : Decimal) : Prop where
  digits_ne_nil : d.digits ≠ []
  isDigit : ∀ c ∈ d.digits, c.isDigit = true
  head_ne_zero : d.digits.head? ≠ some '0'

theorem normal_ofNat {n : Nat} (h : 0 < n) (place : Int) : (ofNat n place).Normal := by
  have hdigits : (ofNat n place).digits = (Text.digits n).rdropWhile (· = '0') := rfl
  have hkeeps := List.rdropWhile_prefix (· = '0') (Text.digits n)
  have hhead : (Text.digits n).head? ≠ some '0' := fun hzero =>
    absurd (Text.digits_inj.mp (Text.digits_of_head_zero n hzero)) (Nat.ne_of_gt h)
  cases hn : Text.digits n with
  | nil => exact absurd hn (Text.digits_ne_nil n)
  | cons c cs =>
    rw [hn, List.head?_cons, ne_eq, Option.some.injEq] at hhead
    -- The first digit is not dropped, so it is still the first.
    have hne : (Text.digits n).rdropWhile (· = '0') ≠ [] := by
      rw [ne_eq, List.rdropWhile_eq_nil_iff]
      intro hall
      exact hhead (by simpa using hall c (by simp [hn]))
    refine ⟨hdigits ▸ hne, fun d hd => ?_, ?_⟩
    · exact Text.isDigit_of_mem_digits (hkeeps.subset (hdigits ▸ hd))
    · rw [hdigits]
      cases hkept : (Text.digits n).rdropWhile (· = '0') with
      | nil => exact absurd hkept hne
      | cons d ds =>
        rw [hkept, hn, List.cons_prefix_cons] at hkeeps
        simpa [hkeeps.1] using hhead

/-- The power of ten of a decimal is bounded as the number is. -/
theorem exponent_ofNat_le {n j : Nat} (place : Int) (h : n < 10 ^ (j + 1)) :
    (ofNat n place).exponent ≤ place + j := by
  have hlength : (Text.digits n).length ≤ j + 1 :=
    (Nat.length_toDigits_le_iff (by decide) (Nat.succ_pos j)).mpr h
  show place + ((Text.digits n).length : Int) - 1 ≤ _
  omega

end Decimal

namespace Value

variable {F : Format}

theorem two_pow_spareBits_le {units : Nat} (h : 0 < units) : 2 ^ F.spareBits units ≤ units := by
  have hp := F.precision_pos
  calc 2 ^ F.spareBits units
      ≤ 2 ^ units.log2 := Nat.pow_le_pow_right (by decide) (by unfold Format.spareBits; omega)
    _ ≤ units := Nat.log2_self_le (Nat.ne_of_gt h)

/-- The interval around a positive value starts above zero. -/
theorem span_low_pos {units : Nat} (h : 0 < units) : 0 < (span F units).low := by
  have hgap := two_pow_spareBits_le (F := F) h
  unfold span
  dsimp only
  split
  · omega
  · omega

theorem pos_of_has {s : Span} {n num den : Nat} (hlow : 0 < s.low) (hden : 0 < den)
    (h : s.has (n * num) den = true) : 0 < n := by
  have hle : s.low * den ≤ n * num := by
    unfold Span.has at h
    split at h
    · exact (of_decide_eq_true h).1
    · exact Nat.le_of_lt (of_decide_eq_true h).1
  have hpos : 0 < n * num := Nat.lt_of_lt_of_le (Nat.mul_pos hlow hden) hle
  exact Nat.pos_of_mul_pos_right hpos

/-- **A hit on a grid is a positive number at the place of the grid**, and it is not past the
neighbour above the value. -/
theorem onGrid?_eq_some {units : Nat} {place : Int} {d : Decimal} (hunits : 0 < units)
    (h : onGrid? F units place = some d) :
    ∃ n, d = .ofNat n place ∧ 0 < n ∧
      n ≤ 4 * units * 10 ^ (-place).toNat / (4 * 2 ^ F.scale * 10 ^ place.toNat) + 1 := by
  have hden : 0 < 10 ^ (-place).toNat := Nat.pow_pos (by decide)
  have hlow := span_low_pos (F := F) hunits
  unfold onGrid? at h
  dsimp only at h
  split at h
  · next hbelow _ =>
    have hpos := pos_of_has hlow hden hbelow
    refine ⟨_, (Option.some.inj h).symm, ?_, roundHalfEven_le_of_lt (Nat.lt_succ_self _)⟩
    exact Nat.lt_of_lt_of_le hpos (le_roundHalfEven _ _)
  · next hbelow _ =>
    exact ⟨_, (Option.some.inj h).symm, pos_of_has hlow hden hbelow, Nat.le_succ _⟩
  · exact ⟨_, (Option.some.inj h).symm, Nat.succ_pos _, Nat.le_refl _⟩
  · exact absurd h (by simp)

/-- The shortest decimal is from a grid no coarser than the first digit of the value, or it is the
value itself in quarter units. -/
theorem shortest_cases (F : Format) (units : Nat) :
    (∃ place ≤ leadingPlace F units, onGrid? F units place = some (shortest F units)) ∨
      shortest F units = .ofNat (4 * units) 0 := by
  unfold shortest
  dsimp only
  split
  · next d hfound =>
    obtain ⟨n, -, hn⟩ := List.exists_of_findSome?_eq_some hfound
    exact .inl ⟨_, by omega, hn⟩
  · exact .inr rfl

theorem normal_shortest {units : Nat} (h : 0 < units) : (shortest F units).Normal := by
  rcases shortest_cases F units with ⟨place, -, hgrid⟩ | hquarters
  · obtain ⟨n, hn, hpos, -⟩ := onGrid?_eq_some h hgrid
    rw [hn]
    exact Decimal.normal_ofNat hpos place
  · rw [hquarters]
    exact Decimal.normal_ofNat (by omega) 0

theorem leadingPlace_le {units k : Nat} (h : units ≤ 2 ^ F.scale * 10 ^ k) :
    leadingPlace F units ≤ k := by
  have hquotient : units * 10 ^ F.scale / 2 ^ F.scale < 10 ^ (k + F.scale + 1) := by
    refine Nat.lt_of_le_of_lt (Nat.div_le_of_le_mul ?_)
      (Nat.pow_lt_pow_right (by decide) (Nat.lt_succ_self (k + F.scale)))
    rw [Nat.pow_add, ← Nat.mul_assoc]
    exact Nat.mul_le_mul_right _ h
  have hlength :=
    (Nat.length_toDigits_le_iff (by decide) (Nat.succ_pos (k + F.scale))).mpr hquotient
  show ((Text.digits (units * 10 ^ F.scale / 2 ^ F.scale)).length : Int) - 1 - F.scale ≤ k
  unfold Text.digits
  omega

/-- The power of ten of a hit is that of the value or less. -/
theorem exponent_onGrid?_le {units k : Nat} {place : Int} {d : Decimal} (hunits : 0 < units)
    (hk : units ≤ 2 ^ F.scale * 10 ^ k) (hplace : place ≤ k)
    (h : onGrid? F units place = some d) : d.exponent ≤ k := by
  obtain ⟨n, rfl, -, hn⟩ := onGrid?_eq_some hunits h
  -- `k` digits before the point and as many behind it as the place asks for.
  obtain ⟨j, hj⟩ : ∃ j : Nat, (j : Int) = k - place := ⟨(k - place).toNat, by omega⟩
  have hexact : 4 * units * 10 ^ (-place).toNat ≤ 4 * 2 ^ F.scale * 10 ^ place.toNat * 10 ^ j := by
    calc 4 * units * 10 ^ (-place).toNat
        ≤ 4 * (2 ^ F.scale * 10 ^ k) * 10 ^ (-place).toNat :=
          Nat.mul_le_mul_right _ (Nat.mul_le_mul_left 4 hk)
      _ = 4 * 2 ^ F.scale * 10 ^ (k + (-place).toNat) := by
          simp only [Nat.pow_add, Nat.mul_assoc]
      _ = 4 * 2 ^ F.scale * 10 ^ (place.toNat + j) := by
          rw [show k + (-place).toNat = place.toNat + j by omega]
      _ = 4 * 2 ^ F.scale * 10 ^ place.toNat * 10 ^ j := by
          simp only [Nat.pow_add, Nat.mul_assoc]
  have hbound : n < 10 ^ (j + 1) := by
    have hquotient := Nat.div_le_of_le_mul hexact
    have hten : 0 < 10 ^ j := Nat.pow_pos (by decide)
    rw [Nat.pow_succ]
    omega
  have hexponent := Decimal.exponent_ofNat_le place hbound
  omega

theorem exponent_shortest_le {units k : Nat} (hunits : 0 < units)
    (hk : units ≤ 2 ^ F.scale * 10 ^ k) : (shortest F units).exponent ≤ (k + F.scale : Nat) := by
  rcases shortest_cases F units with ⟨place, hplace, hgrid⟩ | hquarters
  · have hlead := leadingPlace_le hk
    have hexponent := exponent_onGrid?_le hunits hk (by omega) hgrid
    omega
  · have hfour : 4 * units < 10 ^ (k + F.scale + 1) := by
      have htwo : 2 ^ F.scale ≤ 10 ^ F.scale := Nat.pow_le_pow_left (by decide) _
      have hle : units ≤ 10 ^ (k + F.scale) := by
        rw [Nat.pow_add, Nat.mul_comm]
        exact Nat.le_trans hk (Nat.mul_le_mul_right _ htwo)
      have hpos : 0 < 10 ^ (k + F.scale) := Nat.pow_pos (by decide)
      rw [Nat.pow_succ]
      omega
    rw [hquarters]
    have hexponent := Decimal.exponent_ofNat_le 0 hfour
    omega

end Value
end RetirementVault.Binary
