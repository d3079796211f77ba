import RetirementVault.Proofs.Binary.Shortest
import RetirementVault.Proofs.Binary.Size
import RetirementVault.Proofs.Json.Field

/-!
# Binary values are read where they can be written

A 32-bit value is written by its shortest decimal and read by way of 64 bits, with two roundings
that are not the writer's. Whether the value that comes back is the one that went out is a question
this file leaves alone; what it shows is that something always comes back. **A finite value is read
from its own numeral, an infinity and not-a-number are not** (`isSome_single?_ofSingle`): those two
are written as null, which is no number.

The reader refuses a numeral for one reason only, that the 64-bit value is out of range. It cannot
be where there are few digits before the point, the power of ten counted in (`isSome_double?`),
because the word that the digits spell has 64 bits and a power of ten has four bits a digit.
-/

set_option autoImplicit false

namespace RetirementVault
namespace Json

open Binary

namespace Numeral

/-! ## What the reader of 64 bits accepts -/

theorem absorb_lt {n : Nat} (h : n < UInt64.size) (ds : List Char) :
    (absorb n ds).1 < UInt64.size := by
  induction ds generalizing n with
  | nil => exact h
  | cons d ds ih =>
    rw [absorb]
    split
    · next hnext => exact ih hnext
    · exact h

theorem length_absorb_le (n : Nat) (ds : List Char) : (absorb n ds).2.length ≤ ds.length := by
  induction ds generalizing n with
  | nil => exact Nat.le_refl _
  | cons d ds ih =>
    rw [absorb]
    split
    · exact Nat.le_succ_of_le (ih _)
    · exact Nat.le_refl _

/-- A word has 64 bits before the point of the 64-bit format. -/
theorem word_atMost {n : Nat} (h : n < UInt64.size) :
    (Value.ofNat binary64 n).AtMost (64 + binary64.scale) :=
  Value.ofNat_atMost (Nat.le_of_lt h) (by decide)

/-- A power of ten has no more than four bits a digit. -/
theorem powerOfTen_atMost {p : Nat} (h : p < 240) :
    (powerOfTen p).AtMost (4 * p + binary64.scale) := by
  have hten : 10 ^ p ≤ 2 ^ (4 * p) := by
    rw [Nat.pow_mul]
    exact Nat.pow_le_pow_left (by decide) p
  refine Value.ofNat_atMost hten ?_
  show 4 * p + 1074 < 53 + 2045
  omega

theorem isSome_scale? {f : Double} {power : Int} (hf : f.AtMost (64 + binary64.scale))
    (hpower : power < 240) : (scale? f power).isSome = true := by
  unfold scale?
  by_cases hsign : 0 ≤ power
  · have hten := powerOfTen_atMost (p := power.toNat) (by omega)
    have hproduct :
        (f * powerOfTen power.toNat).AtMost (64 + 4 * power.toNat + binary64.scale) := by
      refine Value.mul_atMost hf hten (by omega) ?_
      show 64 + 4 * power.toNat + 1074 < 53 + 2045
      omega
    rw [if_pos hsign, if_pos (show power ≤ (maxPower : Nat) by unfold maxPower; omega)]
    dsimp only
    rw [if_pos hproduct.isFinite]
    rfl
  · rw [if_neg hsign]
    dsimp only
    split
    · rfl
    · split <;> rfl

/-- **A numeral with few digits before the point has a 64-bit value**, the power of ten counted
in. The digits behind the point only make the power smaller. -/
theorem isSome_double? {n : Numeral} (h : n.whole.length + n.exponent.getD 0 < 240) :
    n.double?.isSome = true := by
  have hleft := length_absorb_le 0 n.whole
  have hwhole : (absorb 0 n.whole).1 < UInt64.size := absorb_lt (by decide) _
  unfold double?
  simp only [Option.isSome_map]
  exact isSome_scale? (word_atMost (absorb_lt hwhole _)) (by omega)

theorem isSome_single? {n : Numeral} (h : n.whole.length + n.exponent.getD 0 < 240) :
    n.single?.isSome = true := by
  unfold single?
  dsimp only
  split
  · rfl
  · split
    · rfl
    · rw [Option.isSome_map]
      exact isSome_double? h

/-! ## What the writer of a decimal writes -/

theorem wellFormed_ofDecimal (negative : Bool) {d : Decimal} (h : d.Normal) :
    (ofDecimal negative d).WellFormed := by
  obtain ⟨hne, hdigits, hhead⟩ := h
  have hzeros : ∀ k, ∀ c ∈ List.replicate k '0', c.isDigit = true := fun k c hc =>
    List.eq_of_mem_replicate hc ▸ rfl
  unfold ofDecimal
  split
  · split
    -- Below one a zero stands before the point.
    · refine ⟨by simp, by simp, fun _ => rfl, fun c hc => ?_⟩
      rcases List.mem_append.mp hc with hzero | hd
      · exact hzeros _ c hzero
      · exact hdigits c hd
    -- From one on the first digit does, and it is not zero.
    · dsimp only
      cases hd : d.digits with
      | nil => exact absurd hd hne
      | cons c cs =>
        rw [hd] at hdigits hhead
        refine ⟨by simp, fun x hx => ?_, fun hzero => absurd (by simpa using hzero) hhead,
          fun x hx => ?_⟩
        · rcases List.mem_append.mp hx with htaken | hzero
          · exact hdigits x (List.mem_of_mem_take htaken)
          · exact hzeros _ x hzero
        · split at hx
          · rw [List.mem_singleton.mp hx]
            rfl
          · exact hdigits x (List.mem_of_mem_drop hx)
  · cases hd : d.digits with
    | nil => exact absurd hd hne
    | cons c cs =>
      rw [hd] at hdigits hhead
      refine ⟨by simp, fun x hx => ?_, fun hzero => absurd (by simpa using hzero) hhead,
        fun x hx => ?_⟩
      · exact hdigits x (List.mem_of_mem_take hx)
      · exact hdigits x (List.mem_of_mem_drop hx)

/-- The digits before the point are as many as the power of ten says, or there is one and the power
is written. -/
theorem length_ofDecimal_le (negative : Bool) (d : Decimal) {k : Nat} (h : d.exponent ≤ k) :
    ((ofDecimal negative d).whole.length : Int) + (ofDecimal negative d).exponent.getD 0
      ≤ k + 1 := by
  unfold ofDecimal
  split
  · split
    · show ((1 : Nat) : Int) + 0 ≤ _
      omega
    · simp only [List.length_append, List.length_take, List.length_replicate, Option.getD_none]
      omega
  · have hone := List.length_take_le 1 d.digits
    simp only [Option.getD_some]
    omega

end Numeral

/-! ## A value and its numeral -/

/-- The shortest decimal of a 32-bit value is far from what the 64-bit format cannot hold. -/
theorem exponent_shortest_single_le {units : Nat} (hunits : 0 < units)
    (hsmall : units < binary32.limit) : (Value.shortest binary32 units).exponent ≤ (188 : Nat) := by
  have hlimit : binary32.limit ≤ 2 ^ binary32.scale * 10 ^ 39 := by
    rw [Format.limit, show binary32.precision + binary32.range = binary32.scale + 128 from rfl,
      Nat.pow_add]
    exact Nat.mul_le_mul_left _ (by decide)
  exact Value.exponent_shortest_le hunits (Nat.le_of_lt (Nat.lt_of_lt_of_le hsmall hlimit))

theorem writable_ofSingle (v : Single) : (ofSingle v).Writable := by
  cases v with
  | nan | infinite =>
    unfold ofSingle Writable
    trivial
  | finite negative units fits small =>
    rw [ofSingle]
    split
    · rw [Writable]
      exact ⟨by simp, by simp, fun _ => rfl, by simp⟩
    · next hne =>
      rw [Writable]
      exact Numeral.wellFormed_ofDecimal negative (Value.normal_shortest (Nat.pos_of_ne_zero hne))

/-- **A value is read from its own numeral just when it is finite.** -/
theorem isSome_single?_ofSingle (v : Single) : (ofSingle v).single?.isSome = v.isFinite := by
  cases v with
  | nan | infinite => rfl
  | finite negative units fits small =>
    rw [ofSingle]
    split
    · exact Numeral.isSome_single? (n := ⟨negative, ['0'], ['0'], none⟩)
        (show (1 : Int) < 240 by decide)
    · next hne =>
      have hexponent := exponent_shortest_single_le (Nat.pos_of_ne_zero hne) small
      have hlength := Numeral.length_ofDecimal_le negative _ hexponent
      exact Numeral.isSome_single? (by omega)

end Json
end RetirementVault
