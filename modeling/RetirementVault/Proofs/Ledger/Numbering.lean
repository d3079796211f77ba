import RetirementVault.Proofs.Ledger.Identity
import RetirementVault.Proofs.Ledger.Reload

/-!
# Reservations are numbered one by one

The number of a ledger is counted up by each reservation and by nothing else
(`nextSequence_call`), so the reservations of a run carry the numbers from the first one on without
a gap, whatever the clock says and whatever is refused, settled or reloaded in between. The id is
made of the clock and the number, and the number alone keeps it apart from all other ids of the run.

`Numbered` is the whole of it for a run. No call has to be kept out: one that overflows is given no
number.
-/

set_option autoImplicit false

namespace RetirementVault
namespace Ledger

/-- The calls of a history that reserved, in their order. -/
def reservations (past : List Event) : List Event :=
  past.filter fun e => e.reserved?.isSome

theorem reservations_cons (e : Event) (past : List Event) :
    reservations (e :: past)
      = if e.reserved?.isSome then e :: reservations past else reservations past :=
  List.filter_cons

/-- A call counts on by one when it reserves, and otherwise not at all. -/
theorem nextSequence_call (l : Ledger) (c : Call) :
    (l.call c).2.nextSequence.toNat
      = l.nextSequence.toNat + (l.event c).reserved?.toList.length := by
  have hstep := step_call l c
  unfold event Event.reserved?
  rcases hcall : l.call c with ⟨answer, after⟩
  rw [hcall] at hstep
  cases hstep with
  | refused | usedUp | reloaded => rfl
  | reserved _ _ _ room told =>
    simp only [Except.toOption, Option.bind_some, told]
    exact Word.toNat_add_of_lt room
  | settled _ _ _ _ alone =>
    simp only [Except.toOption, Option.bind_some, alone]
    rfl

/-- **The reservations of a run are numbered from the first number on.** -/
theorem id_of_reservation {l : Ledger} {calls : List Call} {k : Nat} {e : Event}
    (h : (reservations (l.history calls))[k]? = some e) :
    ∃ millis r op, e.call.asks? = some (millis, r) ∧ e.reserved? = some op ∧
      op.id = "op-" ++ Text.decimal millis ++ "-" ++ Text.decimal (l.nextSequence.toNat + k) := by
  induction calls generalizing l k with
  | nil => exact nomatch h
  | cons c calls ih =>
    have hnext := l.nextSequence_call c
    rw [history, reservations_cons] at h
    cases hreserved : (l.event c).reserved? with
    | none =>
      rw [hreserved] at h hnext
      rw [← show _ = l.nextSequence.toNat from hnext]
      exact ih h
    | some op =>
      rw [hreserved] at h hnext
      cases k with
      | zero =>
        obtain rfl : l.event c = e := Option.some.inj h
        obtain ⟨millis, r, hasks, _, _, _, rfl, _⟩ := reserved_event hreserved
        exact ⟨millis, r, _, hasks, hreserved, rfl⟩
      | succ k =>
        obtain ⟨millis, r, op', hasks, hop, hid⟩ := ih h
        refine ⟨millis, r, op', hasks, hop, ?_⟩
        rw [hid, hnext, Option.toList_some, List.length_singleton, Nat.add_assoc, Nat.add_comm 1 k]

/-! ## What is pending -/

/-- The id of what is pending carries a number that has been counted past. -/
def NumberedBelow (l : Ledger) : Prop :=
  ∀ op, l.pending = some op → ∃ millis sequence,
    op.id = "op-" ++ Text.decimal millis ++ "-" ++ Text.decimal sequence ∧
      sequence < l.nextSequence.toNat

theorem NumberedBelow.call {l : Ledger} (h : l.NumberedBelow) (c : Call) :
    (l.call c).2.NumberedBelow := by
  intro op hop
  have hnext := l.nextSequence_call c
  rcases pending_call hop with hbefore | hreserved
  · obtain ⟨millis, sequence, hid, hlt⟩ := h op hbefore
    exact ⟨millis, sequence, hid, by omega⟩
  · obtain ⟨millis, r, _, _, _, _, rfl, _⟩ := reserved_event hreserved
    rw [hreserved, Option.toList_some, List.length_singleton] at hnext
    exact ⟨millis, l.nextSequence.toNat, rfl, by omega⟩

theorem NumberedBelow.run {l : Ledger} (h : l.NumberedBelow) (calls : List Call) :
    (l.run calls).2.NumberedBelow := by
  induction calls generalizing l with
  | nil => exact h
  | cons c calls ih =>
    rw [run_cons]
    exact ih (h.call c)

/-- A refusal for what is pending names it. -/
theorem pending_of_refusal {l : Ledger} {c : Call} {id : String}
    (h : l.refusal? c = some (.stillPending id)) : ∃ op, l.pending = some op ∧ op.id = id := by
  have hnamed (verifier : Signing.Verifier) (r : Request)
      (hobjection : l.objection? verifier r = some (.stillPending id)) :
      ∃ op, l.pending = some op ∧ op.id = id := by
    unfold objection? at hobjection
    split at hobjection
    · next why _ hfault =>
      -- A fault of the request itself is never about what is pending.
      obtain rfl := Option.some.inj hobjection
      unfold Request.fault? at hfault
      repeat' split at hfault
      all_goals exact nomatch hfault
    · exact nomatch hobjection
    · next op _ _ hpending => exact ⟨op, hpending, by simpa using hobjection⟩
    · split at hobjection
      · exact nomatch hobjection
      · exact nomatch hobjection
  cases c with
  | initiate now r => exact hnamed _ r h
  | initiateVerified verifier now r | reserveVerified verifier now r => exact hnamed verifier r h
  | execute | settle => exact absurd h (by simp [refusal?])
  | reload => cases h

theorem mem_history {l : Ledger} {calls : List Call} {e : Event} (h : e ∈ l.history calls) :
    ∃ c, e = e.before.event c := by
  induction calls generalizing l with
  | nil => exact nomatch h
  | cons c calls ih =>
    rw [history] at h
    rcases List.mem_cons.mp h with rfl | h
    · exact ⟨c, rfl⟩
    · exact ih h

theorem pending_of_stillPending {l : Ledger} {c : Call} {id : String}
    (h : (l.call c).1 = .error (.refused (.stillPending id))) :
    ∃ op, l.pending = some op ∧ op.id = id := by
  have hstep := step_call l c
  rcases hcall : l.call c with ⟨answer, after⟩
  rw [hcall] at hstep h
  cases hstep with
  | refused objection =>
    obtain ⟨rfl⟩ := h
    exact pending_of_refusal objection
  | usedUp | reserved | settled | reloaded => exact nomatch h

/-! ## Runs -/

/-- How the reservations of a run from `start` to `now` through `past` are numbered. -/
structure Numbered (start : Ledger) (past : List Event) (now : Ledger) : Prop where
  /-- Counted from zero, the `k`-th carries the first number plus `k`, after its time. -/
  kth : ∀ k e, (reservations past)[k]? = some e → ∃ millis r op,
    e.call.asks? = some (millis, r) ∧ e.reserved? = some op ∧
      op.id = "op-" ++ Text.decimal millis ++ "-" ++ Text.decimal (start.nextSequence.toNat + k)
  /-- No id comes twice. -/
  distinct : ((reservedIn past).map Operation.id).Nodup
  /-- Who is refused because something is pending is told the id of just that. -/
  named : ∀ e ∈ past, ∀ id, e.answer = .error (.refused (.stillPending id)) →
    ∃ op, e.before.pending = some op ∧ op.id = id
  /-- From a ledger with nothing pending on, such as a fresh one, what is pending has a number below
  the next one. -/
  below : start.pending = none → now.NumberedBelow

/-- **Ids never repeat.** Every run, with reloads in either layout at any of its points and whatever
times the calls are made at, goes through, and its reservations are numbered. -/
theorem runs_are_numbered (l : Ledger) (legs : List Leg) :
    ∃ past last, l.travels legs = some (past, last) ∧ Numbered l past last := by
  refine ⟨_, _, l.travels_eq legs, ?_⟩
  exact {
    kth := fun k e h => id_of_reservation h
    distinct := l.nodup_ids _
    named := by
      intro e he id hanswer
      obtain ⟨c, hc⟩ := mem_history he
      rw [hc] at hanswer
      exact pending_of_stillPending hanswer
    below := by
      intro hidle
      apply NumberedBelow.run
      intro op hop
      exact nomatch hidle.symm.trans hop }

end Ledger
end RetirementVault
