import RetirementVault.Proofs.Ledger.Step
import RetirementVault.Settings

/-!
# A fresh ledger never overflows

The number of the next reservation has no bound of its own. What bounds it is the balance: a
reservation takes at least one unit out and draws one number, so balance and number together never
grow. A ledger starts with the number zero, so the two fit into a word at the start and in every
run from there, and while they do no call can overflow.
-/

set_option autoImplicit false

namespace RetirementVault
namespace Ledger

/-- What is left in the vault and the number of the next reservation, added up. -/
def reach (l : Ledger) : Nat :=
  l.balance.toNat + l.nextSequence.toNat

/-- A ledger whose balance is used up before its numbers are. -/
def Headroom (l : Ledger) : Prop :=
  l.reach < UInt64.size

instance (l : Ledger) : Decidable l.Headroom :=
  inferInstanceAs (Decidable (_ < _))

theorem headroom_ofVault (v : Vault) : (ofVault v).Headroom := by
  show v.balance.toNat + (0 : UInt64).toNat < UInt64.size
  exact v.balance.toNat_lt

/-- **With headroom a call does not overflow**, and it does not add to what is there. -/
theorem Headroom.call {l : Ledger} (h : l.Headroom) (c : Call) :
    ¬ Overflows (l.call c).1 ∧ (l.call c).2.reach ≤ l.reach := by
  have hstep := step_call l c
  generalize (l.call c).1 = answer at hstep ⊢
  generalize (l.call c).2 = after at hstep ⊢
  unfold Headroom reach at h
  cases hstep with
  | refused | reloaded => exact ⟨id, Nat.le_refl _⟩
  | settled => exact ⟨id, Nat.le_refl _⟩
  | @usedUp now r asks grants agreed full =>
    -- A positive amount is covered, so the balance is not zero and the number not the last one.
    have hpositive := grants.positive
    have hcovered := grants.covered
    omega
  | @reserved now r reply asks grants agreed room told alone =>
    have htaken : (l.balance - r.amount).toNat = l.balance.toNat - r.amount.toNat :=
      (Word.subtract_of_le grants.covered).2
    have hnext : (l.nextSequence + 1).toNat = l.nextSequence.toNat + 1 :=
      Word.toNat_add_of_lt room
    have hpositive := grants.positive
    have hcovered := grants.covered
    refine ⟨id, ?_⟩
    show (l.balance - r.amount).toNat + (l.nextSequence + 1).toNat ≤ _
    unfold reach
    omega

theorem Headroom.run {l : Ledger} (h : l.Headroom) (calls : List Call) :
    (∀ answer ∈ (l.run calls).1, ¬ Overflows answer) ∧ (l.run calls).2.reach ≤ l.reach := by
  induction calls generalizing l with
  | nil => exact ⟨by simp [Ledger.run], Nat.le_refl _⟩
  | cons c calls ih =>
    have hfirst := h.call c
    have hnext : (l.call c).2.Headroom := Nat.lt_of_le_of_lt hfirst.2 h
    have hrest := ih hnext
    rw [run_cons]
    refine ⟨fun answer hanswer => ?_, Nat.le_trans hrest.2 hfirst.2⟩
    rcases List.mem_cons.mp hanswer with rfl | hanswer
    · exact hfirst.1
    · exact hrest.1 answer hanswer

/-- **No run from a fresh ledger overflows.** Every ledger over a new vault has headroom, and from
one that has it any calls in any number are answered or refused: none of them overflows, the
headroom stays, and balance and number together never grow. -/
theorem no_overflow_with_headroom :
    (∀ v, (ofVault v).Headroom) ∧ default.Headroom ∧ (∀ s : Settings, s.openLedger.Headroom) ∧
    ∀ l : Ledger, l.Headroom → ∀ calls more : List Call,
      (∀ answer ∈ (l.run calls).1, ¬ Overflows answer) ∧ (l.run calls).2.Headroom ∧
      (l.run (calls ++ more)).2.reach ≤ (l.run calls).2.reach := by
  refine ⟨headroom_ofVault, headroom_ofVault _, fun s => headroom_ofVault _, ?_⟩
  intro l h calls more
  have hrun := h.run calls
  have hafter : (l.run calls).2.Headroom := Nat.lt_of_le_of_lt hrun.2 h
  refine ⟨hrun.1, hafter, ?_⟩
  rw [run_append]
  exact (hafter.run more).2

/-- With the number far up and just enough headroom. -/
theorem no_overflow_near_the_top :
    let l : Ledger :=
      { vault := { label := "v", balance := 2 }, pending := none
        nextSequence := 18446744073709551613 }
    let r : Request := { amount := 1, destination := "d", signature := "s" }
    l.Headroom ∧ ∀ answer ∈ (l.run [.initiate 1 r, .settle, .initiate 2 r, .settle]).1,
      ¬ Overflows answer := by
  intro l r
  have h : l.Headroom := by decide
  exact ⟨h, (no_overflow_with_headroom.2.2.2 l h _ []).1⟩

end Ledger
end RetirementVault
