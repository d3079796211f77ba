import RetirementVault.Proofs.Ledger.Step

/-!
# What an answer tells

`step_call` goes from a call to what it does; this file goes back from what is answered. An answer
that names a reservation, a settlement or a vault says what has become of the ledger, and that is
all a client ever learns of it.
-/

set_option autoImplicit false

namespace RetirementVault

def Reply.vault? : Reply → Option Vault
  | .reservedIn vault _ | .executed vault | .settled vault _ => some vault
  | .reserved _ | .reloaded | .unreadable => none

namespace Ledger

variable {l : Ledger} {c : Call} {op : Operation}

/-- A call with an objection to it is refused for that and changes nothing. -/
theorem call_of_refusal {why : Refusal} (h : l.refusal? c = some why) :
    l.call c = (.error (.refused why), l) := by
  have hstep := step_call l c
  rcases hcall : l.call c with ⟨answer, after⟩
  rw [hcall] at hstep
  cases hstep with
  | refused objection => rw [Option.some.inj (h.symm.trans objection)]
  | usedUp _ _ agreed | reserved _ _ agreed | settled _ agreed | reloaded _ agreed =>
    exact absurd (h.symm.trans agreed) (by simp)

/-- **What has been reserved was asked for and granted**, and the ledger holds it. -/
theorem reserved_event (h : (l.event c).reserved? = some op) :
    ∃ now r, c.asks? = some (now, r) ∧ l.Grants r ∧ l.refusal? c = none ∧
      l.nextSequence.toNat + 1 < UInt64.size ∧ op = l.operation now r ∧
      (l.call c).2 = l.reserve op := by
  have hstep := step_call l c
  unfold event Event.reserved? at h
  rcases hcall : l.call c with ⟨answer, after⟩
  rw [hcall] at hstep h
  cases hstep with
  | refused | usedUp | reloaded => exact absurd h (by simp [Except.toOption, Reply.reserved?])
  | settled _ _ _ _ alone => exact absurd (h.symm.trans alone) (by simp)
  | @reserved now r _ asks grants agreed room told =>
    obtain rfl : op = l.operation now r := Option.some.inj (h.symm.trans told)
    exact ⟨now, r, asks, grants, agreed, room, rfl, rfl⟩

/-- What has been settled was pending, and the ledger holds nothing any more. -/
theorem settled_event (h : (l.event c).settled? = some op) :
    l.pending = some op ∧ (l.call c).2 = l.release := by
  have hstep := step_call l c
  unfold event Event.settled? at h
  rcases hcall : l.call c with ⟨answer, after⟩
  rw [hcall] at hstep h
  cases hstep with
  | refused | usedUp | reloaded => exact absurd h (by simp [Except.toOption, Reply.settled?])
  | reserved _ grants _ _ _ alone =>
    simp only [grants.idle] at h
    exact absurd (h.symm.trans alone) (by simp)
  | settled _ _ pending told =>
    obtain rfl := Option.some.inj (h.symm.trans told)
    exact ⟨pending, rfl⟩

theorem exists_of_map_eq_ok {ε α β : Type} {answer : Except ε α} {f : α → β} {b : β}
    (h : answer.map f = .ok b) : ∃ a, answer = .ok a ∧ f a = b := by
  cases answer with
  | error e => exact absurd h (by simp [Except.map])
  | ok a => exact ⟨a, rfl, Except.ok.inj h⟩

/-- A vault that is answered is the one that is left. -/
theorem vault_of_answer {reply : Reply} {vault : Vault} (h : (l.call c).1 = .ok reply)
    (hvault : reply.vault? = some vault) : vault = (l.call c).2.vault := by
  cases c with
  | initiate | initiateVerified =>
    obtain ⟨op, _, rfl⟩ := exists_of_map_eq_ok (f := Reply.reserved) h
    exact absurd hvault (by simp [Reply.vault?])
  | reserveVerified verifier now r =>
    rw [call, reserveVerified] at h ⊢
    rcases hanswer : l.initiateVerified verifier now r with ⟨_ | op, after⟩
    · simp [hanswer, Except.map] at h
    · rw [hanswer] at h
      obtain rfl := Except.ok.inj h
      exact (Option.some.inj hvault).symm
  | execute =>
    rw [call, execute, settle] at h ⊢
    cases hpending : l.pending with
    | none => simp [hpending, Except.map] at h
    | some op =>
      rw [hpending] at h
      obtain rfl := Except.ok.inj h
      exact (Option.some.inj hvault).symm
  | settle =>
    rw [call, settle] at h ⊢
    cases hpending : l.pending with
    | none => simp [hpending, Except.map] at h
    | some op =>
      rw [hpending] at h
      obtain rfl := Except.ok.inj h
      exact (Option.some.inj hvault).symm
  | reload =>
    rw [call, reloaded_eq] at h
    obtain rfl := Except.ok.inj h
    exact absurd hvault (by simp [Reply.vault?])

/-! ## Whatever the call -/

/-- What is pending after a call was pending before it or has been reserved by it. -/
theorem pending_call (h : (l.call c).2.pending = some op) :
    l.pending = some op ∨ (l.event c).reserved? = some op := by
  have hstep := step_call l c
  unfold event Event.reserved?
  rcases hcall : l.call c with ⟨answer, after⟩
  rw [hcall] at hstep h
  cases hstep with
  | refused | usedUp | reloaded => exact .inl h
  | reserved _ _ _ _ told => exact .inr (told.trans h)
  | settled => exact nomatch h

/-- A call never changes whose vault it is. -/
@[simp] theorem label_call (l : Ledger) (c : Call) :
    (l.call c).2.vault.label = l.vault.label := by
  have hstep := step_call l c
  generalize (l.call c).1 = answer at hstep
  generalize (l.call c).2 = after at hstep ⊢
  cases hstep with
  | refused | usedUp | reserved | settled | reloaded => rfl

/-- What is granted leaves a balance that is lower by its amount. -/
theorem Grants.balance_sub {r : Request} (h : l.Grants r) :
    (l.balance - r.amount).toNat + r.amount.toNat = l.balance.toNat := by
  have htaken := (Word.subtract_of_le h.covered).2
  have hcovered := h.covered
  omega

/-- A call never adds to the balance. -/
theorem balance_call_le (l : Ledger) (c : Call) :
    (l.call c).2.balance.toNat ≤ l.balance.toNat := by
  have hstep := step_call l c
  generalize (l.call c).1 = answer at hstep
  generalize (l.call c).2 = after at hstep ⊢
  cases hstep with
  | refused | settled | reloaded => exact Nat.le_refl _
  | @usedUp now r _ grants =>
    have hbalance := grants.balance_sub
    show (l.balance - r.amount).toNat ≤ _
    omega
  | @reserved now r _ _ grants =>
    have hbalance := grants.balance_sub
    show (l.balance - r.amount).toNat ≤ _
    omega

end Ledger
end RetirementVault
