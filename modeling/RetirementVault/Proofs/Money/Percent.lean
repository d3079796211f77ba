import RetirementVault.Proofs.Binary.Exact
import RetirementVault.Proofs.Binary.Size
import RetirementVault.Proofs.Money.Amount

/-!
# Percentages are rounded to hundredths

A percentage is not an amount: it is a value of the 64-bit format, which in general is no number of
hundredths. It is shown by the number of hundredths that is nearest to its exact value, in the
layout that amounts have, and the sign goes with what is shown and not with the value. So what
rounds to zero is shown as zero without a sign (`PercentShown`).
-/

set_option autoImplicit false

namespace RetirementVault.Money

open Text Binary

def percentLayout : Layout where
  places := 2
  unit := "%"

/-- The sign in front of a percentage that is shown by so many hundredths. -/
def percentSign (value : ℚ) (shown : ℕ) : Sign :=
  if value < 0 ∧ 0 < shown then .minus else .none

/-- A text with its minus taken away, or with one in front where there was none. -/
def turnMinus (text : String) : String :=
  match text.toList with
  | '-' :: rest => String.ofList rest
  | rest => String.ofList ('-' :: rest)

/-- A percentage with a given exact value is shown by so many hundredths. -/
structure PercentShown (x : Double) (value : ℚ) (shown : ℕ) : Prop where
  nearest : ∀ n, IsNearest (100 * |value|) n ↔ n = shown
  shows : Shows percentLayout (percentSign value shown)
    (signedUnits (percentSign value shown) shown / 100) (percent x)
  /-- No whole part has more than 309 digits. -/
  short : shown / 100 < 10 ^ 309
  turned : percent (-x) = if 0 < shown then turnMinus (percent x) else percent x

/-! ## Text -/

theorem write_percent (sign : Sign) (h : ℕ) :
    percentLayout.write sign h
      = String.ofList sign.chars ++ grouped (h / 100) ++ "." ++ padded 2 (h % 100) ++ "%" := by
  simp [Layout.write, Layout.decimals, percentLayout, String.append_assoc]

/-- The sign stands in front of all else. -/
theorem write_minus (l : Layout) (units : ℕ) :
    l.write .minus units = "-" ++ l.write .none units := by
  simp [Layout.write, Sign.chars, String.append_assoc]

/-- A percentage without a sign starts with a digit. -/
theorem toList_write_percent (h : ℕ) :
    ∃ d rest, d ≠ '-' ∧ (percentLayout.write .none h).toList = d :: rest := by
  obtain ⟨whole, -, hwhole⟩ := exists_groups (h / 100)
  obtain ⟨d, first, hfirst⟩ := List.exists_cons_of_ne_nil whole.first_ne_nil
  have hdigit := whole.isDigit_of_mem d (by simp [hfirst])
  refine ⟨d, first ++ whole.others.flatMap (',' :: ·) ++ ['.'] ++ paddedDigits 2 (h % 100) ++ ['%'],
    ?_, ?_⟩
  · rintro rfl
    exact absurd hdigit (by decide)
  · rw [write_percent, ← hwhole, Groups.chars, hfirst, padded]
    simp [Sign.chars]

/-- Without a sign there is one to put in front, with one there is one to take away. -/
theorem turnMinus_write (h : ℕ) :
    turnMinus (percentLayout.write .none h) = percentLayout.write .minus h ∧
      turnMinus (percentLayout.write .minus h) = percentLayout.write .none h := by
  rw [write_minus]
  constructor
  · obtain ⟨d, rest, hminus, hwrite⟩ := toList_write_percent h
    have hwhole := String.ofList_toList (s := percentLayout.write .none h)
    rw [hwrite] at hwhole
    simp [turnMinus, hminus, ← hwhole, String.ofList_cons]
  · simp [turnMinus]

/-! ## The nearest number of hundredths -/

theorem hundredths_zero : hundredths 0 = 0 := by
  have hexact := roundHalfEven_mul (Nat.two_pow_pos binary64.scale) 0
  rwa [Nat.zero_mul] at hexact

theorem hundredths_div_lt {units : ℕ} (small : units < binary64.limit) :
    hundredths units / 100 < 10 ^ 309 := by
  have hlimit (k : ℕ) (h : binary64.precision + binary64.range = k + binary64.scale) :
      binary64.limit = 2 ^ k * 2 ^ binary64.scale := by
    rw [Format.limit, h, Nat.pow_add]
  have hbound : hundredths units ≤ 100 * 2 ^ 1024 := by
    refine roundHalfEven_le (Nat.two_pow_pos _) ?_
    rw [Nat.mul_assoc, ← hlimit 1024 rfl]
    exact Nat.mul_le_mul_left _ small.le
  calc hundredths units / 100
      ≤ 2 ^ 1024 := Nat.div_le_of_le_mul hbound
    _ < 10 ^ 309 := by decide +kernel

section
variable (negative : Bool) (units : ℕ)

theorem abs_signed_div :
    100 * |(signed negative units : ℚ) / 2 ^ binary64.scale|
      = (100 * units : ℕ) / (2 ^ binary64.scale : ℕ) := by
  have habs : |(signed negative units : ℚ)| = units := by
    unfold signed
    split <;> simp
  have hpos : (0 : ℚ) < 2 ^ binary64.scale := pow_pos two_pos _
  rw [abs_div, habs, abs_of_pos hpos, mul_div_assoc']
  push_cast
  rfl

theorem signed_div_neg_iff :
    (signed negative units : ℚ) / 2 ^ binary64.scale < 0 ↔ negative = true ∧ units ≠ 0 := by
  have hpos : (0 : ℚ) < 2 ^ binary64.scale := pow_pos two_pos _
  rw [div_lt_iff₀ hpos, zero_mul, Int.cast_lt_zero]
  unfold signed
  split <;> simp_all [Nat.pos_iff_ne_zero]

/-- The sign that is shown, by the sign there is. -/
theorem percentSign_signed :
    percentSign ((signed negative units : ℚ) / 2 ^ binary64.scale) (hundredths units)
      = if negative = true ∧ hundredths units ≠ 0 then .minus else .none := by
  refine if_congr ?_ rfl rfl
  rw [signed_div_neg_iff]
  constructor
  · exact fun h => ⟨h.1.1, h.2.ne'⟩
  · -- What is shown is not zero, so there is something to show.
    refine fun h => ⟨⟨h.1, ?_⟩, Nat.pos_of_ne_zero h.2⟩
    rintro rfl
    exact h.2 hundredths_zero

theorem percent_finite (fits : binary64.Fits units) (small : units < binary64.limit) :
    percent (.finite negative units fits small)
      = percentLayout.write (if negative = true ∧ hundredths units ≠ 0 then .minus else .none)
          (hundredths units) := by
  rw [write_percent, percent]
  split <;> rfl

/-- What is shown of a percentage with its sign turned. -/
theorem percent_neg_finite (fits : binary64.Fits units) (small : units < binary64.limit) :
    percent (-.finite negative units fits small)
      = if 0 < hundredths units then turnMinus (percent (.finite negative units fits small))
        else percent (.finite negative units fits small) := by
  have hneg := percent_finite (!negative) units fits small
  rw [show -Value.finite negative units fits small = .finite (!negative) units fits small from rfl,
    hneg, percent_finite]
  rcases Nat.eq_zero_or_pos (hundredths units) with hzero | hpos
  · simp [hzero]
  · obtain ⟨hput, htaken⟩ := turnMinus_write (hundredths units)
    cases negative <;> simp [hpos, hpos.ne', hput, htaken]

end

/-- **A finite percentage is shown by the nearest number of hundredths.** -/
theorem exists_percentShown {x : Double} {value : ℚ} (h : x.rational? = some value) :
    ∃ shown, PercentShown x value shown := by
  cases x with
  | nan | infinite => cases h
  | finite negative units fits small =>
    obtain rfl := Option.some.inj h
    have hnearest := isNearest_roundHalfEven (100 * units) (Nat.two_pow_pos binary64.scale)
    rw [← abs_signed_div negative] at hnearest
    have hshows := percentLayout.shows_write
      (percentSign ((signed negative units : ℚ) / 2 ^ binary64.scale) (hundredths units))
      (hundredths units)
    refine ⟨hundredths units, ?_, ?_, hundredths_div_lt small, percent_neg_finite ..⟩
    · exact fun n => ⟨fun hn => hn.unique hnearest, fun hn => hn ▸ hnearest⟩
    · have hplaces : (10 : ℚ) ^ percentLayout.places = 100 := by norm_num [percentLayout]
      rwa [percentSign_signed, hplaces, ← percent_finite negative units fits small,
        ← percentSign_signed] at hshows

theorem signedUnits_eq_zero_iff {sign : Sign} {units : ℕ} :
    signedUnits sign units = 0 ↔ units = 0 := by
  unfold signedUnits
  split <;> omega

/-- Nothing is shown as a negative zero. -/
theorem percent_ne_negative_zero (x : Double) : percent x ≠ "-0.00%" := by
  cases x with
  | nan => simp [percent]
  | infinite negative => cases negative <;> simp [percent]
  | finite negative units fits small =>
    rw [percent_finite]
    intro h
    -- The text reads back as zero, and zero hundredths have no sign.
    have hzero : percentLayout.write .minus 0 = "-0.00%" := by decide
    have hnumber := (percentLayout.shows_write _ (hundredths units)).number_eq
      (h.trans hzero.symm ▸ percentLayout.shows_write .minus 0)
    rw [div_left_inj' (pow_ne_zero _ (by norm_num)), Int.cast_inj] at hnumber
    have hnone : hundredths units = 0 := signedUnits_eq_zero_iff.mp hnumber
    rw [hnone, if_neg (by simp)] at h
    exact absurd h (by decide)

/-- **Percentages are rounded to hundredths.** What is shown of a value of the 64-bit format is, for
each encoding of a number, the nearest number of hundredths with a sign in front if the value is
below zero and does not round to it. A value with the other sign is shown with the other sign. -/
theorem percentages_are_rounded_to_hundredths {bits : UInt64} (h : EncodesNumber bits) :
    (∃ shown, PercentShown (.ofCode binary64 bits.toNat) (encoded bits) shown) ∧
      percent (.ofCode binary64 bits.toNat) ≠ "-0.00%" :=
  ⟨exists_percentShown (rational?_ofCode h), percent_ne_negative_zero _⟩

theorem percentages_are_rounded_to_hundredths_at_tie :
    EncodesNumber 0xC093488000000000 ∧
      (∃ shown, PercentShown (.ofCode binary64 (0xC093488000000000 : UInt64).toNat)
        (encoded 0xC093488000000000) shown) ∧
      percent (.ofCode binary64 (0xC093488000000000 : UInt64).toNat) ≠ "-0.00%" :=
  have h : EncodesNumber 0xC093488000000000 := by unfold EncodesNumber; decide
  ⟨h, percentages_are_rounded_to_hundredths h⟩

example : percent (.ofCode binary64 (0xC093488000000000 : UInt64).toNat) = "-1,234.12%" := by
  decide +kernel

end RetirementVault.Money
