import RetirementVault.Proofs.Ledger.Step

/-!
# Nothing is lost on the way through a ledger

An amount leaves the balance when it is reserved and is settled once, later. `Accounts` says what
that means for a whole history: the money adds up, every reservation has its own number, and the
settled withdrawals are the reserved ones in the order they were reserved. It is what a call keeps
(`accounts_event`) and what histories in a row keep (`Accounts.trans`), so a run keeps it whatever
the calls are and however many of them are refused.

The one thing that has to be kept out is a call that overflows, because it takes an amount and
reserves nothing.
-/

set_option autoImplicit false

namespace RetirementVault
namespace Ledger

/-- The amounts of some withdrawals together, as an unbounded number. -/
def total : List Operation → Nat
  | [] => 0
  | op :: ops => op.amount.toNat + total ops

/-- What is reserved and not yet settled. -/
def held (l : Ledger) : Nat :=
  total l.pending.toList

def reservedIn (past : List Event) : List Operation :=
  past.filterMap Event.reserved?

def settledIn (past : List Event) : List Operation :=
  past.filterMap Event.settled?

theorem filterMap_cons_toList {α β : Type} (f : α → Option β) (a : α) (as : List α) :
    (a :: as).filterMap f = (f a).toList ++ as.filterMap f := by
  cases h : f a <;> simp [h]

theorem reservedIn_cons (e : Event) (past : List Event) :
    reservedIn (e :: past) = e.reserved?.toList ++ reservedIn past :=
  filterMap_cons_toList _ _ _

theorem settledIn_cons (e : Event) (past : List Event) :
    settledIn (e :: past) = e.settled?.toList ++ settledIn past :=
  filterMap_cons_toList _ _ _

/-- The books of a ledger that has come from `start` to `now` through `past`. -/
structure Accounts (start : Ledger) (past : List Event) (now : Ledger) : Prop where
  /-- It is still the same vault. -/
  label : now.vault.label = start.vault.label
  /-- What there was is there, is held or has been settled. -/
  funds : start.balance.toNat + start.held
    = now.balance.toNat + now.held + total (settledIn past)
  /-- Every reservation has taken one number. -/
  numbers : now.nextSequence.toNat = start.nextSequence.toNat + (reservedIn past).length
  /-- What has been settled and what is pending are the reservations, none left out, none twice,
  none changed and in their order. -/
  pairing : settledIn past ++ now.pending.toList = start.pending.toList ++ reservedIn past

theorem total_append (ops more : List Operation) :
    total (ops ++ more) = total ops + total more := by
  induction ops with
  | nil => simp [total]
  | cons op ops ih => rw [List.cons_append, total, total, ih, Nat.add_assoc]

theorem Accounts.refl (l : Ledger) : Accounts l [] l where
  label := rfl
  funds := by simp [settledIn, total]
  numbers := by simp [reservedIn]
  pairing := by simp [settledIn, reservedIn]

/-- Books that follow each other are one book. -/
theorem Accounts.trans {l m n : Ledger} {past later : List Event} (h : Accounts l past m)
    (h' : Accounts m later n) : Accounts l (past ++ later) n where
  label := h'.label.trans h.label
  funds := by
    have hsettled : total (settledIn (past ++ later))
        = total (settledIn past) + total (settledIn later) := by
      rw [settledIn, List.filterMap_append, total_append]
      rfl
    have hfirst := h.funds
    have hthen := h'.funds
    omega
  numbers := by
    have hreserved : (reservedIn (past ++ later)).length
        = (reservedIn past).length + (reservedIn later).length := by
      rw [reservedIn, List.filterMap_append, List.length_append]
      rfl
    have hfirst := h.numbers
    have hthen := h'.numbers
    omega
  pairing := by
    calc settledIn (past ++ later) ++ n.pending.toList
        = settledIn past ++ (settledIn later ++ n.pending.toList) := by
          rw [settledIn, List.filterMap_append, List.append_assoc]
          rfl
      _ = (settledIn past ++ m.pending.toList) ++ reservedIn later := by
          rw [h'.pairing, List.append_assoc]
      _ = l.pending.toList ++ reservedIn (past ++ later) := by
          rw [h.pairing, List.append_assoc, reservedIn, reservedIn, reservedIn,
            List.filterMap_append]

theorem Accounts.of_event {l after : Ledger} {e : Event} {settled reserved : Option Operation}
    (hsettled : e.settled? = settled) (hreserved : e.reserved? = reserved)
    (label : after.vault.label = l.vault.label)
    (funds : l.balance.toNat + l.held = after.balance.toNat + after.held + total settled.toList)
    (numbers : after.nextSequence.toNat = l.nextSequence.toNat + reserved.toList.length)
    (pairing : settled.toList ++ after.pending.toList = l.pending.toList ++ reserved.toList) :
    Accounts l [e] after := by
  subst hsettled hreserved
  have hin : settledIn [e] = e.settled?.toList := by
    cases h : e.settled? <;> simp [settledIn, h]
  have hout : reservedIn [e] = e.reserved?.toList := by
    cases h : e.reserved? <;> simp [reservedIn, h]
  exact ⟨label, hin ▸ funds, hout ▸ numbers, hin ▸ hout ▸ pairing⟩

/-- **A call keeps the books**, unless it overflows. -/
theorem accounts_event (l : Ledger) (c : Call) (h : ¬ Overflows (l.call c).1) :
    Accounts l [l.event c] (l.call c).2 := by
  have hstep := step_call l c
  unfold event
  generalize (l.call c).1 = answer at h hstep
  generalize (l.call c).2 = after at hstep
  cases hstep with
  | refused | reloaded => exact .of_event rfl rfl rfl rfl rfl (List.append_nil _).symm
  | usedUp => exact absurd trivial h
  | @reserved now r reply asks grants agreed room told alone =>
    -- Nothing was pending, so the shorter answer has no withdrawal to stand for either.
    have hsettled : reply.settled? l.pending = none := grants.idle ▸ alone
    have htaken : (l.balance - r.amount).toNat = l.balance.toNat - r.amount.toNat :=
      (Word.subtract_of_le grants.covered).2
    refine .of_event hsettled told rfl ?_ (Word.toNat_add_of_lt room) ?_
    · have hbefore : l.held = 0 := by rw [held, grants.idle]; rfl
      have hafter : (l.reserve (l.operation now r)).held = r.amount.toNat := by
        simp [held, reserve, total, operation]
      have hbalance : (l.reserve (l.operation now r)).balance = l.balance - r.amount := rfl
      have hcovered := grants.covered
      rw [hbefore, hafter, hbalance, htaken]
      simp only [total, Option.toList_none]
      omega
    · rw [grants.idle]
      rfl
  | @settled op reply asks agreed pending told alone =>
    refine .of_event told alone rfl ?_ rfl ?_
    · rw [held, pending]
      show _ = l.balance.toNat + 0 + _
      omega
    · rw [pending]
      rfl

theorem accounts_history (l : Ledger) (calls : List Call)
    (h : ∀ answer ∈ (l.run calls).1, ¬ Overflows answer) :
    Accounts l (l.history calls) (l.run calls).2 := by
  induction calls generalizing l with
  | nil => exact .refl l
  | cons c calls ih =>
    rw [run_cons] at h ⊢
    have hfirst := accounts_event l c (h _ (by simp))
    have hrest := ih (l.call c).2 fun answer hanswer => h answer (by simp [hanswer])
    exact hfirst.trans hrest

/-- **The books are right at every point of a run.** Whatever ledger it starts from and whatever is
called, as long as no call overflows: after each of the calls that have been made the money adds
up, the numbers count the reservations, and what has been settled and what is pending are the
reservations in their order. -/
theorem accounts_throughout (l : Ledger) (calls : List Call)
    (h : ∀ answer ∈ (l.run calls).1, ¬ Overflows answer) (made : List Call)
    (hmade : made <+: calls) : Accounts l (l.history made) (l.run made).2 := by
  obtain ⟨more, rfl⟩ := hmade
  refine accounts_history l made fun answer hanswer => h answer ?_
  rw [run_append]
  exact List.mem_append_left _ hanswer

/-- From a ledger with something pending, with refused calls and a reload on the way. -/
theorem accounts_throughout_of_pending :
    let op : Operation := { id := "op-1-6", amount := 5, destination := "d" }
    let l : Ledger :=
      { vault := { label := "v", balance := 100 }, pending := op, nextSequence := 7 }
    let r : Request := { amount := 40, destination := "d", signature := "s" }
    let calls : List Call := [.initiate 1 r, .execute, .reload, .initiate 2 r, .settle, .settle]
    Accounts l (l.history calls) (l.run calls).2 := by
  intro op l r calls
  refine accounts_throughout l calls ?_ calls List.prefix_rfl
  simp only [l, calls, run, call, reloaded_eq]
  decide

end Ledger
end RetirementVault
