import RetirementVault.Proofs.Statement.Summary

/-!
# What a bitcoin has cost on average

The average price is a quotient of numbers without bound, the contribution in sats' worth by the
sats, and it is rounded down. Nothing is lost up to there. What is told of it are its last 64 bits,
so it is right exactly if it is a word (`average_price_exact_iff_word`), and otherwise too low by a
multiple of all the words there are. Contributions do not have to be large for that: a single sat
that cost two billion dollars is enough.
-/

set_option autoImplicit false

namespace RetirementVault.Summary

/-- The average price as a number without bound. -/
def fullPrice (s : Summary) : Nat :=
  s.contributed.toNat * Money.satsPerBitcoin / s.sats.toNat

/-- A price at which the sats have cost no more than was contributed, whereas a cent more for each
bitcoin would have been too much. -/
def PricedAt (s : Summary) (price : Nat) : Prop :=
  price * s.sats.toNat ≤ s.contributed.toNat * Money.satsPerBitcoin ∧
    s.contributed.toNat * Money.satsPerBitcoin < (price + 1) * s.sats.toNat

instance (s : Summary) (price : Nat) : Decidable (s.PricedAt price) :=
  inferInstanceAs (Decidable (_ ∧ _))

theorem pricedAt_iff {s : Summary} (hsats : 0 < s.sats) {price : Nat} :
    s.PricedAt price ↔ price = s.fullPrice := by
  have hpos : 0 < s.sats.toNat := UInt64.lt_iff_toNat_lt.mp hsats
  unfold PricedAt fullPrice
  rw [← Nat.le_div_iff_mul_le hpos, ← Nat.div_lt_iff_lt_mul hpos]
  omega

theorem averagePrice_of_sumsUp {purchases : List Purchase} {s : Summary}
    (h : SumsUp purchases s) (hsats : 0 < s.sats) :
    s.averagePrice.toNat = s.fullPrice % UInt64.size := by
  rw [h.averagePrice, averagePriceOf, if_pos hsats]
  exact UInt64.toNat_ofNat'

/-- **The average price is exact exactly if it is a word.** Otherwise its last 64 bits are told. -/
theorem average_price_exact_iff_word (purchases : List Purchase) {s : Summary}
    (h : ofPurchases purchases = .ok s) (hsats : 0 < s.sats) :
    (s.PricedAt s.averagePrice.toNat ↔ s.fullPrice < UInt64.size) ∧
      s.averagePrice.toNat = s.fullPrice % UInt64.size := by
  have htold := averagePrice_of_sumsUp (ofPurchases_eq_ok_iff.mp h) hsats
  refine ⟨?_, htold⟩
  rw [pricedAt_iff hsats, htold]
  constructor
  · intro hexact
    rw [← hexact]
    exact Nat.mod_lt _ (by decide)
  · intro hword
    exact Nat.mod_eq_of_lt hword

/-- The most that a single sat can have cost if the price is to be right. -/
theorem average_price_exact_iff_word_at_the_top :
    let p : Purchase :=
      { date := "2024-01-15", time := "09:00", contributed := 184467440737, price := 0
        acquired := 1, current := 0 }
    let s : Summary :=
      { contributed := p.contributed, current := p.current, sats := 1, profit := -184467440737
        profitPercent := percentOf (-184467440737) p.contributed
        averagePrice := 18446744073700000000 }
    ofPurchases [p] = .ok s ∧ 0 < s.sats ∧ s.PricedAt s.averagePrice.toNat := by
  intro p s
  have hsummary : ofPurchases [p] = .ok s :=
    ofPurchases_eq_ok_iff.mpr ⟨by decide, by decide, by decide, rfl, rfl, by decide⟩
  have hsats : 0 < s.sats := by decide
  obtain ⟨hexact, -⟩ := average_price_exact_iff_word [p] hsummary hsats
  exact ⟨hsummary, hsats, hexact.mpr (by decide)⟩

/-- Not every average price is exact: at one cent more, next to nothing of it is left. -/
theorem average_price_may_lose_its_top :
    ¬ ∀ (purchases : List Purchase) (s : Summary), ofPurchases purchases = .ok s → 0 < s.sats →
      s.PricedAt s.averagePrice.toNat := by
  intro hall
  let p : Purchase :=
    { date := "2024-01-15", time := "09:00", contributed := 184467440738, price := 0
      acquired := 1, current := 0 }
  let s : Summary :=
    { contributed := p.contributed, current := p.current, sats := 1, profit := -184467440738
      profitPercent := percentOf (-184467440738) p.contributed, averagePrice := 90448384 }
  have hsummary : ofPurchases [p] = .ok s :=
    ofPurchases_eq_ok_iff.mpr ⟨by decide, by decide, by decide, rfl, rfl, by decide⟩
  exact absurd (hall [p] s hsummary (by decide)) (by decide)

end RetirementVault.Summary
