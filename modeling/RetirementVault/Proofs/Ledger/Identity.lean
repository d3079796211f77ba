import Mathlib.Data.List.Basic
import RetirementVault.Proofs.Ledger.Answer
import RetirementVault.Proofs.Ledger.Conservation

/-!
# Reservations do not share an id

An id is put together from a time and a number. The time may be anything, also the same twice or
an earlier one; the number is what tells two reservations apart, because it is counted up with each
of them and never down. Digits hold no dash, so the number can be read off the id
(`operationId_inj`).
-/

set_option autoImplicit false

namespace RetirementVault

theorem not_mem_digits_dash (n : Nat) : '-' ∉ Text.digits n := by
  intro h
  exact absurd (Text.isDigit_of_mem_digits h) (by decide)

/-- An id tells the time and the number it was made of. -/
theorem operationId_inj {now now' : Nat} {sequence sequence' : UInt64} :
    operationId now sequence = operationId now' sequence' ↔
      now = now' ∧ sequence = sequence' := by
  constructor
  · intro h
    have hchars : Text.digits now ++ '-' :: Text.digits sequence.toNat
        = Text.digits now' ++ '-' :: Text.digits sequence'.toNat := by
      have hlists := congrArg String.toList h
      simpa [operationId, Text.decimal] using hlists
    have hparts := (List.append_cons_inj_of_notMem (not_mem_digits_dash now)
      (not_mem_digits_dash sequence.toNat)).mp hchars
    exact ⟨Text.digits_inj.mp hparts.1, UInt64.toNat_inj.mp (Text.digits_inj.mp hparts.2.2)⟩
  · rintro ⟨rfl, rfl⟩
    rfl

namespace Ledger

/-- A call never counts the number of the next reservation down. -/
theorem nextSequence_le_call (l : Ledger) (c : Call) :
    l.nextSequence.toNat ≤ (l.call c).2.nextSequence.toNat := by
  have hstep := step_call l c
  generalize (l.call c).1 = answer at hstep
  generalize (l.call c).2 = after at hstep ⊢
  cases hstep with
  | refused | usedUp | settled | reloaded => exact Nat.le_refl _
  | reserved _ _ _ room =>
    show _ ≤ (l.nextSequence + 1).toNat
    rw [Word.toNat_add_of_lt room]
    exact Nat.le_add_right _ _

/-- What is reserved from here on has a number from here on. -/
theorem sequence_of_reservedIn {l : Ledger} {calls : List Call} {op : Operation}
    (h : op ∈ reservedIn (l.history calls)) :
    ∃ now sequence, op.id = operationId now sequence ∧
      l.nextSequence.toNat ≤ sequence.toNat := by
  induction calls generalizing l with
  | nil => exact absurd h (by simp [history, reservedIn])
  | cons c calls ih =>
    rw [history, reservedIn_cons, List.mem_append, Option.mem_toList] at h
    rcases h with h | h
    · obtain ⟨now, r, _, _, _, _, rfl, _⟩ := reserved_event h
      exact ⟨now, l.nextSequence, rfl, Nat.le_refl _⟩
    · obtain ⟨now, sequence, hid, hle⟩ := ih h
      exact ⟨now, sequence, hid, Nat.le_trans (l.nextSequence_le_call c) hle⟩

/-- **No two reservations of a run share an id**, whatever the times are. -/
theorem nodup_ids (l : Ledger) (calls : List Call) :
    ((reservedIn (l.history calls)).map Operation.id).Nodup := by
  induction calls generalizing l with
  | nil => exact List.nodup_nil
  | cons c calls ih =>
    rw [history, reservedIn_cons]
    cases hreserved : (l.event c).reserved? with
    | none => exact ih _
    | some op =>
      obtain ⟨now, r, _, _, _, hroom, rfl, hafter⟩ := reserved_event hreserved
      rw [Option.toList_some, List.cons_append, List.nil_append, List.map_cons, List.nodup_cons]
      refine ⟨fun hmem => ?_, ih _⟩
      obtain ⟨other, hother, hsame⟩ := List.mem_map.mp hmem
      obtain ⟨now', sequence, hid, hle⟩ := sequence_of_reservedIn hother
      -- The number has been counted past the one in the first id.
      have hnumber := (operationId_inj.mp (hid.symm.trans hsame)).2
      have hnext : (l.reserve (l.operation now r)).nextSequence.toNat
          = l.nextSequence.toNat + 1 := Word.toNat_add_of_lt hroom
      rw [hafter, hnext, hnumber] at hle
      omega

end Ledger
end RetirementVault
