import RetirementVault.Proofs.Word.Range
import RetirementVault.Statement.Basic

/-!
# What a summary adds up

A summary is made of three totals, so it does not depend on the order of the purchases, and on the
withdrawals of a statement even less; and it overflows in adding exactly if one of the totals is no
word (`summary_only_adds_up`).

Its profit is a difference of totals that are read as signed numbers first. What is told is the true
profit exactly if that is a signed number (`profit_exact_iff_signed`); where it is none, a profit is
told as a loss and a loss as a profit.
-/

set_option autoImplicit false

namespace RetirementVault

namespace Summary

/-! ## Totals -/

/-- A total of purchases, as a number. -/
def totalOf (amount : Purchase → UInt64) (purchases : List Purchase) : Nat :=
  Word.total (purchases.map amount)

/-- What a summary says of its purchases. -/
structure SumsUp (purchases : List Purchase) (s : Summary) : Prop where
  contributed : s.contributed.toNat = totalOf Purchase.contributed purchases
  current : s.current.toNat = totalOf Purchase.current purchases
  sats : s.sats.toNat = totalOf Purchase.acquired purchases
  profit : Word.signedDifference s.current s.contributed = .ok s.profit
  profitPercent : s.profitPercent = percentOf s.profit s.contributed
  averagePrice : s.averagePrice = averagePriceOf s.contributed s.sats

theorem ofPurchases_eq_ok_iff {purchases : List Purchase} {s : Summary} :
    ofPurchases purchases = .ok s ↔ SumsUp purchases s := by
  constructor
  · intro h
    obtain ⟨contributed, hcontributed, h⟩ := bind_eq_ok.mp h
    obtain ⟨current, hcurrent, h⟩ := bind_eq_ok.mp h
    obtain ⟨sats, hsats, h⟩ := bind_eq_ok.mp h
    obtain ⟨profit, hprofit, h⟩ := bind_eq_ok.mp h
    obtain rfl := Except.ok.inj h
    exact ⟨Word.sum_eq_ok_iff.mp hcontributed, Word.sum_eq_ok_iff.mp hcurrent,
      Word.sum_eq_ok_iff.mp hsats, hprofit, rfl, rfl⟩
  · intro h
    rw [ofPurchases, Word.sum_eq_ok_iff.mpr h.contributed, Word.sum_eq_ok_iff.mpr h.current,
      Word.sum_eq_ok_iff.mpr h.sats]
    refine bind_eq_ok.mpr ⟨_, rfl, bind_eq_ok.mpr ⟨_, rfl, bind_eq_ok.mpr ⟨_, rfl, ?_⟩⟩⟩
    refine bind_eq_ok.mpr ⟨_, h.profit, ?_⟩
    rw [← h.profitPercent, ← h.averagePrice]
    rfl

theorem ofPurchases_perm {purchases others : List Purchase} (h : purchases.Perm others) :
    ofPurchases purchases = ofPurchases others := by
  rw [ofPurchases, ofPurchases, Word.sum_perm (h.map Purchase.contributed),
    Word.sum_perm (h.map Purchase.current), Word.sum_perm (h.map Purchase.acquired)]

/-- Purchases of which one total or another is no word. -/
def Overfull (purchases : List Purchase) : Prop :=
  UInt64.size ≤ totalOf Purchase.contributed purchases ∨
    UInt64.size ≤ totalOf Purchase.current purchases ∨
      UInt64.size ≤ totalOf Purchase.acquired purchases

theorem not_overfull_of_sums {purchases : List Purchase} {contributed current sats : UInt64}
    (hcontributed : Word.sum (purchases.map Purchase.contributed) = .ok contributed)
    (hcurrent : Word.sum (purchases.map Purchase.current) = .ok current)
    (hsats : Word.sum (purchases.map Purchase.acquired) = .ok sats) : ¬ Overfull purchases := by
  have hcontributed := Word.total_lt_of_sum hcontributed
  have hcurrent := Word.total_lt_of_sum hcurrent
  have hsats := Word.total_lt_of_sum hsats
  unfold Overfull totalOf
  omega

theorem eq_add_iff_of_error {purchases : List Purchase} {e : Overflow}
    (h : ofPurchases purchases = .error e) : e = .add ↔ Overfull purchases := by
  rcases bind_eq_error.mp h with hsum | ⟨contributed, hcontributed, h⟩
  · obtain ⟨rfl, hlarge⟩ := Word.sum_eq_error_iff.mp hsum
    exact iff_of_true rfl (.inl hlarge)
  rcases bind_eq_error.mp h with hsum | ⟨current, hcurrent, h⟩
  · obtain ⟨rfl, hlarge⟩ := Word.sum_eq_error_iff.mp hsum
    exact iff_of_true rfl (.inr (.inl hlarge))
  rcases bind_eq_error.mp h with hsum | ⟨sats, hsats, h⟩
  · obtain ⟨rfl, hlarge⟩ := Word.sum_eq_error_iff.mp hsum
    exact iff_of_true rfl (.inr (.inr hlarge))
  rcases bind_eq_error.mp h with hprofit | ⟨profit, -, h⟩
  · -- With three words for totals only the profit is left to fail, and that does not add.
    obtain rfl := Word.signedDifference_eq_error hprofit
    exact iff_of_false nofun (not_overfull_of_sums hcontributed hcurrent hsats)
  · exact nomatch h

/-- A summary overflows in adding exactly if one of its totals is no word. -/
theorem ofPurchases_eq_add_iff (purchases : List Purchase) :
    ofPurchases purchases = .error .add ↔ Overfull purchases := by
  constructor
  · intro h
    exact (eq_add_iff_of_error h).mp rfl
  · intro h
    cases hsummary : ofPurchases purchases with
    | ok s =>
      have hsums := ofPurchases_eq_ok_iff.mp hsummary
      exact absurd h (not_overfull_of_sums (Word.sum_eq_ok_iff.mpr hsums.contributed)
        (Word.sum_eq_ok_iff.mpr hsums.current) (Word.sum_eq_ok_iff.mpr hsums.sats))
    | error e => rw [(eq_add_iff_of_error hsummary).mpr h]

end Summary

namespace Statement

/-- The purchases on a statement are those it was made from, in some order. -/
theorem purchases_ofEntries (purchases : List Purchase) (withdrawals : List Withdrawal) :
    (ofEntries purchases withdrawals).purchases.Perm purchases := by
  have hperm := (List.mergeSort_perm (withdrawals.map StatementItem.withdraw ++
    purchases.map StatementItem.deposit) StatementItem.newerOrSame).filterMap
      StatementItem.purchase?
  have hwithdrawals : (withdrawals.map StatementItem.withdraw).filterMap StatementItem.purchase?
      = [] := by
    rw [List.filterMap_map]
    exact List.filterMap_eq_nil_iff.mpr fun _ _ => rfl
  have hpurchases : (purchases.map StatementItem.deposit).filterMap StatementItem.purchase?
      = purchases := by
    rw [List.filterMap_map]
    exact List.filterMap_some
  rwa [List.filterMap_append, hwithdrawals, hpurchases, List.nil_append] at hperm

/-- **A summary only adds up.** A statement of the same purchases in any order, whatever the
withdrawals, has the summary of the purchases or fails in the same way; and it fails in adding
exactly if one of the three totals is no word. -/
theorem summary_only_adds_up {purchases permuted : List Purchase} (withdrawals : List Withdrawal)
    (h : permuted.Perm purchases) :
    (ofEntries permuted withdrawals).summary = Summary.ofPurchases purchases ∧
      (Summary.ofPurchases purchases = .error .add ↔
        UInt64.size ≤ Summary.totalOf Purchase.contributed purchases ∨
          UInt64.size ≤ Summary.totalOf Purchase.current purchases ∨
            UInt64.size ≤ Summary.totalOf Purchase.acquired purchases) :=
  ⟨Summary.ofPurchases_perm ((purchases_ofEntries permuted withdrawals).trans h),
    Summary.ofPurchases_eq_add_iff purchases⟩

/-- Two halves of all the words there are, the later one given first. -/
theorem summary_only_adds_up_past_the_end :
    let p : Purchase :=
      { date := "2024-01-15", time := "09:00", contributed := 9223372036854775808, price := 0
        acquired := 1, current := 1 }
    let q : Purchase := { p with date := "2024-02-28", acquired := 2 }
    let w : Withdrawal :=
      { id := "w-1", date := "2024-02-28", time := "15:10", amount := 1, sats := 1, price := 0 }
    [q, p].Perm [p, q] ∧ (ofEntries [q, p] [w]).summary = Summary.ofPurchases [p, q] ∧
      Summary.ofPurchases [p, q] = .error .add := by
  intro p q w
  have hperm : [q, p].Perm [p, q] := .swap p q []
  obtain ⟨hsame, hadds⟩ := summary_only_adds_up [w] hperm
  exact ⟨hperm, hsame, hadds.mpr (.inl (by decide))⟩

end Statement

/-! ## Profit -/

open Word (difference IsSigned StandsFor)

/-- **A profit that is told is the true one exactly if that is a signed number.** Only then is it
right as well that there is a gain or that there is none. A profit that is no signed number is told
as one that is off by as many as there are words. What one purchase has gained is told alike. -/
theorem profit_exact_iff_signed (purchases : List Purchase) (p : Purchase) :
    (∀ s : Summary, Summary.ofPurchases purchases = .ok s →
      StandsFor s.profit s.current s.contributed ∧
        ((s.isGain = true ↔ s.contributed ≤ s.current) ↔
          IsSigned (difference s.current s.contributed))) ∧
    ∀ gain : Int, p.gain = .ok gain → StandsFor gain p.current p.contributed := by
  constructor
  · intro s h
    have hprofit := Word.standsFor_of_signedDifference (Summary.ofPurchases_eq_ok_iff.mp h).profit
    refine ⟨hprofit, ?_⟩
    rw [Summary.isGain, decide_eq_true_iff]
    exact hprofit.sign_iff
  · intro gain h
    exact Word.standsFor_of_signedDifference h

/-- Totals that are both read as negative numbers, with a loss between them. -/
theorem profit_exact_iff_signed_past_the_middle :
    let p : Purchase :=
      { date := "2024-01-15", time := "09:00", contributed := 9223372036854775813, price := 0
        acquired := 0, current := 9223372036854775808 }
    let s : Summary :=
      { contributed := p.contributed, current := p.current, sats := 0, profit := -5
        profitPercent := Summary.percentOf (-5) p.contributed
        averagePrice := Summary.averagePriceOf p.contributed 0 }
    Summary.ofPurchases [p] = .ok s ∧ p.gain = .ok (-5) ∧
      s.profit = difference s.current s.contributed ∧
        (s.isGain = true ↔ s.contributed ≤ s.current) ∧
          -5 = difference p.current p.contributed := by
  intro p s
  have hsummary : Summary.ofPurchases [p] = .ok s :=
    Summary.ofPurchases_eq_ok_iff.mpr ⟨by decide, by decide, by decide, rfl, rfl, rfl⟩
  have hgain : p.gain = .ok (-5) := rfl
  have hsigned : IsSigned (difference p.current p.contributed) := by decide
  obtain ⟨htold, hsign⟩ := (profit_exact_iff_signed [p] p).1 s hsummary
  have hone := (profit_exact_iff_signed [p] p).2 (-5) hgain
  exact ⟨hsummary, hgain, htold.exact_iff.mpr hsigned, hsign.mpr hsigned,
    hone.exact_iff.mpr hsigned⟩

/-- It is not so that every profit that is told is the true one: all that half the words can count
is told as a loss of as much. -/
theorem profit_may_be_told_as_loss :
    ¬ ((∀ (purchases : List Purchase) (s : Summary), Summary.ofPurchases purchases = .ok s →
        s.profit = difference s.current s.contributed ∧
          (s.isGain = true ↔ s.contributed ≤ s.current)) ∧
      ∀ (p : Purchase) (gain : Int), p.gain = .ok gain →
        gain = difference p.current p.contributed) := by
  rintro ⟨hsummary, -⟩
  have hexact := hsummary
    [{ date := "2024-01-15", time := "09:00", contributed := 0, price := 0, acquired := 0
       current := 9223372036854775808 }]
    { contributed := 0, current := 9223372036854775808, sats := 0
      profit := -9223372036854775808, profitPercent := Binary.Value.zero Binary.binary64 false
      averagePrice := 0 } rfl
  exact absurd hexact.1 (by decide)

end RetirementVault
