import RetirementVault.Proofs.Ledger.Step

/-!
# What a failed call leaves

A call that does not go through is meant to leave the ledger as it was. It does, except in one
place: a reservation takes the amount out before it draws its number, so where the numbers are used
up the amount is gone and nothing is reserved for it. `failed_and_changed_iff` says that this is
the only place, and what is left of the ledger there.
-/

set_option autoImplicit false

namespace RetirementVault
namespace Ledger

/-- A reservation that nothing speaks against and that there is no number for. -/
def FindsNoNumber (l : Ledger) (c : Call) : Prop :=
  c.asks?.isSome = true ∧ l.refusal? c = none ∧ l.nextSequence.toNat + 1 = UInt64.size

instance (l : Ledger) (c : Call) : Decidable (l.FindsNoNumber c) :=
  inferInstanceAs (Decidable (_ ∧ _ ∧ _))

theorem withBalance_ne {l : Ledger} {r : Request} (h : l.Grants r) :
    (l.withBalance (l.balance - r.amount)).balance.toNat + r.amount.toNat = l.balance.toNat ∧
      l.withBalance (l.balance - r.amount) ≠ l := by
  have htaken : (l.withBalance (l.balance - r.amount)).balance.toNat
      = l.balance.toNat - r.amount.toNat := (Word.subtract_of_le h.covered).2
  have hpositive := h.positive
  have hcovered := h.covered
  refine ⟨by omega, fun heq => ?_⟩
  rw [heq] at htaken
  omega

theorem call_of_findsNoNumber {l : Ledger} {c : Call} (h : l.FindsNoNumber c) :
    ∃ now r, c.asks? = some (now, r) ∧ l.Grants r ∧ (l.call c).1 = .error (.overflow .add) ∧
      (l.call c).2 = l.withBalance (l.balance - r.amount) := by
  obtain ⟨hasks, hagreed, hfull⟩ := h
  have hstep := step_call l c
  generalize (l.call c).1 = answer at hstep ⊢
  generalize (l.call c).2 = after at hstep ⊢
  cases hstep with
  | refused objection => exact absurd (hagreed.symm.trans objection) (by simp)
  | usedUp asks grants => exact ⟨_, _, asks, grants, rfl, rfl⟩
  | reserved _ _ _ room => omega
  | settled asks | reloaded asks => exact absurd hasks (by simp [asks])

theorem call_of_not_findsNoNumber {l : Ledger} {c : Call} (h : ¬ l.FindsNoNumber c) {why : Stop}
    (hfails : (l.call c).1 = .error why) : (l.call c).2 = l := by
  have hstep := step_call l c
  generalize (l.call c).1 = answer at hstep hfails
  generalize (l.call c).2 = after at hstep ⊢
  cases hstep with
  | refused => rfl
  | usedUp asks _ agreed full => exact absurd ⟨by simp [asks], agreed, full⟩ h
  | reserved | settled | reloaded => exact absurd hfails (by simp)

/-- **A call that fails leaves the ledger as it was, unless it is a reservation that nothing speaks
against and the numbers are used up.** There the call overflows, the amount is missing from the
balance, nothing is pending for it, and label and number are the old ones. -/
theorem failed_and_changed_iff (l : Ledger) (c : Call) :
    (((∃ why, (l.call c).1 = .error why) ∧ (l.call c).2 ≠ l) ↔ l.FindsNoNumber c) ∧
    (l.FindsNoNumber c → ∃ now r, c.asks? = some (now, r) ∧ 0 < r.amount.toNat ∧
      (l.call c).1 = .error (.overflow .add) ∧
      (l.call c).2.balance.toNat + r.amount.toNat = l.balance.toNat ∧
      (l.call c).2 = { l with
        vault := { label := l.vault.label, balance := l.balance - r.amount }
        pending := none }) := by
  refine ⟨⟨fun ⟨⟨why, hfails⟩, hchanged⟩ => ?_, fun h => ?_⟩, fun h => ?_⟩
  · by_cases h : l.FindsNoNumber c
    · exact h
    · exact absurd (call_of_not_findsNoNumber h hfails) hchanged
  · obtain ⟨now, r, _, hgrants, hanswer, hafter⟩ := call_of_findsNoNumber h
    exact ⟨⟨_, hanswer⟩, hafter ▸ (withBalance_ne hgrants).2⟩
  · obtain ⟨now, r, hasks, hgrants, hanswer, hafter⟩ := call_of_findsNoNumber h
    refine ⟨now, r, hasks, hgrants.positive, hanswer, hafter ▸ (withBalance_ne hgrants).1, ?_⟩
    rw [hafter, withBalance, ← hgrants.idle]

/-- A ledger whose numbers are used up, and a request it could grant otherwise. -/
theorem failed_and_changed_at_last_number :
    let l : Ledger :=
      { vault := { label := "v", balance := 10 }, pending := none
        nextSequence := 18446744073709551615 }
    let r : Request := { amount := 3, destination := "d", signature := "s" }
    l.FindsNoNumber (.initiate 0 r) ∧ (∃ now r', (Call.initiate 0 r).asks? = some (now, r') ∧
      0 < r'.amount.toNat ∧ (l.call (.initiate 0 r)).1 = .error (.overflow .add) ∧
      (l.call (.initiate 0 r)).2.balance.toNat + r'.amount.toNat = l.balance.toNat ∧
      (l.call (.initiate 0 r)).2 = { l with
        vault := { label := l.vault.label, balance := l.balance - r'.amount }
        pending := none }) := by
  intro l r
  have hfinds : l.FindsNoNumber (.initiate 0 r) := by decide
  exact ⟨hfinds, (failed_and_changed_iff l (.initiate 0 r)).2 hfinds⟩

/-- It is not so that every call that fails leaves the ledger as it was: three of ten are gone. -/
theorem failed_call_may_lose_amount :
    ¬ ∀ (l : Ledger) (c : Call) (why : Stop), (l.call c).1 = .error why → (l.call c).2 = l := by
  intro h
  have hsame := h
    { vault := { label := "v", balance := 10 }, pending := none
      nextSequence := 18446744073709551615 }
    (.initiate 0 { amount := 3, destination := "d", signature := "s" }) (.overflow .add) rfl
  exact absurd hsame (by decide)

end Ledger
end RetirementVault
