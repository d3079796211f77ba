import RetirementVault.Proofs.Ledger.Record

/-!
# What one call does

Everything that is said of ledgers over time rests on one statement, `step_call`: a call does one
of five things. It is refused and changes nothing; it reserves; it settles; it reloads; or it is
granted and finds the numbers used up. `Step` lists the five with what each of them presupposes, so
that an invariant is shown by going through them, and no proof opens the operations again.

The three ways to reserve differ in who is asked and in what is answered, not in what happens:
`initiateVerified_eq` says it for one of them and the others are brought back to it.
-/

set_option autoImplicit false

namespace RetirementVault

/-! ## What a call asks for -/

def Call.asks? : Call → Option (Nat × Request)
  | .initiate now r | .initiateVerified _ now r | .reserveVerified _ now r => some (now, r)
  | .execute | .settle | .reload => none

def Reply.reserved? : Reply → Option Operation
  | .reserved op | .reservedIn _ op => some op
  | .executed _ | .settled _ _ | .reloaded | .unreadable => none

/-- The withdrawal that has been settled when an answer says one has. The shorter answer does not
name it; it is the one that was pending. -/
def Reply.settled? (pending : Option Operation) : Reply → Option Operation
  | .settled _ op => some op
  | .executed _ => pending
  | .reserved _ | .reservedIn _ _ | .reloaded | .unreadable => none

namespace Ledger

/-- What speaks against reserving first: the request's own fault, then the verifier's, then what
the ledger has to say. -/
def objection? (l : Ledger) (verifier : Signing.Verifier) (r : Request) : Option Refusal :=
  match r.fault?, verifier r, l.pending with
  | some why, _, _ => some why
  | none, .error why, _ => some (.rejected why)
  | none, .ok (), some op => some (.stillPending op.id)
  | none, .ok (), none =>
    if l.balance < r.amount then some (.insufficient r.amount l.balance) else none

def refusal? (l : Ledger) : Call → Option Refusal
  | .initiate _ r => l.objection? Signing.acceptAny r
  | .initiateVerified verifier _ r | .reserveVerified verifier _ r => l.objection? verifier r
  | .execute | .settle => if l.pending.isNone then some .nothingPending else none
  | .reload => none

/-- The withdrawal that a request becomes. -/
def operation (l : Ledger) (now : Nat) (r : Request) : Operation where
  id := operationId now l.nextSequence
  amount := r.amount
  destination := r.destination

def reserve (l : Ledger) (op : Operation) : Ledger :=
  { l.withBalance (l.balance - op.amount) with
    pending := some op
    nextSequence := l.nextSequence + 1 }

def release (l : Ledger) : Ledger :=
  { l with pending := none }

/-- A request that may be reserved as it stands: it takes something, no more than there is, and
nothing else is pending. -/
structure Grants (l : Ledger) (r : Request) : Prop where
  idle : l.pending = none
  positive : 0 < r.amount.toNat
  covered : r.amount.toNat ≤ l.balance.toNat

/-- What a call can do to a ledger, what it answers and what it leaves. -/
inductive Step (l : Ledger) (c : Call) : Except Stop Reply → Ledger → Prop
  /-- There is an objection, and nothing happens. -/
  | refused {why : Refusal} (objection : l.refusal? c = some why) :
    Step l c (.error (.refused why)) l
  /-- Nothing speaks against the reservation and there is no number left for it. -/
  | usedUp {now : Nat} {r : Request} (asks : c.asks? = some (now, r)) (grants : l.Grants r)
    (agreed : l.refusal? c = none) (full : l.nextSequence.toNat + 1 = UInt64.size) :
    Step l c (.error (.overflow .add)) (l.withBalance (l.balance - r.amount))
  /-- A withdrawal is reserved. -/
  | reserved {now : Nat} {r : Request} {reply : Reply} (asks : c.asks? = some (now, r))
    (grants : l.Grants r) (agreed : l.refusal? c = none)
    (room : l.nextSequence.toNat + 1 < UInt64.size)
    (told : reply.reserved? = some (l.operation now r)) (alone : reply.settled? none = none) :
    Step l c (.ok reply) (l.reserve (l.operation now r))
  /-- The pending withdrawal is settled. -/
  | settled {op : Operation} {reply : Reply} (asks : c.asks? = none)
    (agreed : l.refusal? c = none) (pending : l.pending = some op)
    (told : reply.settled? l.pending = some op) (alone : reply.reserved? = none) :
    Step l c (.ok reply) l.release
  /-- The ledger goes out and comes back. -/
  | reloaded (asks : c.asks? = none) (agreed : l.refusal? c = none) : Step l c (.ok .reloaded) l

/-! ## Reserving -/

theorem amount_of_fault?_none {r : Request} (h : r.fault? = none) : 0 < r.amount.toNat := by
  refine Nat.pos_of_ne_zero fun hzero => ?_
  have hamount : r.amount = 0 := UInt64.toNat_inj.mp hzero
  rw [Request.fault?, if_pos hamount] at h
  exact absurd h (by simp)

theorem grants_of_objection?_none {l : Ledger} {verifier : Signing.Verifier} {r : Request}
    (h : l.objection? verifier r = none) : l.Grants r := by
  unfold objection? at h
  split at h
  · exact absurd h (by simp)
  · exact absurd h (by simp)
  · exact absurd h (by simp)
  · next hfault _ hpending =>
    split at h
    · exact absurd h (by simp)
    · next hless =>
      exact ⟨hpending, amount_of_fault?_none hfault,
        UInt64.le_iff_toNat_le.mp (UInt64.not_lt.mp hless)⟩

theorem add_one_nextSequence (l : Ledger) :
    Word.add l.nextSequence 1 = if l.nextSequence.toNat + 1 < UInt64.size
      then .ok (l.nextSequence + 1) else .error .add := rfl

/-- **A reservation under a verifier**: refused with the first objection there is, and otherwise
made if there is a number for it. Where there is none the amount is gone and nothing is pending. -/
theorem initiateVerified_eq (l : Ledger) (verifier : Signing.Verifier) (now : Nat) (r : Request) :
    l.initiateVerified verifier now r =
      match l.objection? verifier r with
      | some why => (.error (.refused why), l)
      | none =>
        if l.nextSequence.toNat + 1 < UInt64.size then
          (.ok (l.operation now r), l.reserve (l.operation now r))
        else (.error (.overflow .add), l.withBalance (l.balance - r.amount)) := by
  unfold initiateVerified
  cases hfault : r.fault? with
  | some why => simp [objection?, hfault]
  | none =>
    cases hasked : verifier r with
    | error why => simp [objection?, hfault, hasked]
    | ok u =>
      cases hpending : l.pending with
      | some op => simp [objection?, hfault, hasked, hpending, initiate]
      | none =>
        by_cases hless : l.balance < r.amount
        · simp [objection?, hfault, hasked, hpending, initiate, hless]
        · have hcovered : r.amount.toNat ≤ l.balance.toNat :=
            UInt64.le_iff_toNat_le.mp (UInt64.not_lt.mp hless)
          have htaken := (Word.subtract_of_le hcovered).1
          simp only [objection?, hfault, hasked, hpending, initiate, if_neg hless, htaken,
            add_one_nextSequence]
          by_cases hroom : l.nextSequence.toNat + 1 < UInt64.size
          · simp only [if_pos hroom]
            rfl
          · simp only [if_neg hroom]

theorem initiate_eq (l : Ledger) (now : Nat) (r : Request) :
    l.initiate now r = l.initiateVerified Signing.acceptAny now r := by
  unfold initiateVerified Signing.acceptAny
  cases hfault : r.fault? with
  | some why => simp [initiate, hfault]
  | none => rfl

/-- The same with the vault in the answer, as it stands after the reservation. -/
theorem reserveVerified_eq (l : Ledger) (verifier : Signing.Verifier) (now : Nat) (r : Request) :
    l.reserveVerified verifier now r =
      match l.objection? verifier r with
      | some why => (.error (.refused why), l)
      | none =>
        if l.nextSequence.toNat + 1 < UInt64.size then
          (.ok ((l.reserve (l.operation now r)).vault, l.operation now r),
            l.reserve (l.operation now r))
        else (.error (.overflow .add), l.withBalance (l.balance - r.amount)) := by
  rw [reserveVerified, initiateVerified_eq]
  cases l.objection? verifier r with
  | some why => rfl
  | none =>
    by_cases hroom : l.nextSequence.toNat + 1 < UInt64.size
    · simp only [if_pos hroom]
    · simp only [if_neg hroom]

/-- What a reservation comes to, whichever call asked for it. The answer is turned into a reply
that names the reserved withdrawal and settles nothing. -/
theorem step_reserving {l : Ledger} {c : Call} {verifier : Signing.Verifier} {now : Nat}
    {r : Request} (reply : Operation → Reply) (hasks : c.asks? = some (now, r))
    (hrefusal : l.refusal? c = l.objection? verifier r)
    (htold : ∀ op, (reply op).reserved? = some op)
    (halone : ∀ op, (reply op).settled? none = none) :
    Step l c ((l.initiateVerified verifier now r).1.map reply)
      (l.initiateVerified verifier now r).2 := by
  rw [initiateVerified_eq]
  cases hobjection : l.objection? verifier r with
  | some why => exact .refused (hrefusal.trans hobjection)
  | none =>
    have hgrants := grants_of_objection?_none hobjection
    have hagreed := hrefusal.trans hobjection
    by_cases hroom : l.nextSequence.toNat + 1 < UInt64.size
    · simp only [if_pos hroom]
      exact .reserved hasks hgrants hagreed hroom (htold _) (halone _)
    · simp only [if_neg hroom]
      have hlt : l.nextSequence.toNat < UInt64.size := l.nextSequence.toNat_lt
      exact .usedUp hasks hgrants hagreed (by omega)

/-! ## Every call -/

/-- **What a call does** is one of five things. -/
theorem step_call (l : Ledger) (c : Call) : Step l c (l.call c).1 (l.call c).2 := by
  cases c with
  | initiate now r =>
    rw [call, initiate_eq]
    exact step_reserving .reserved rfl rfl (fun _ => rfl) fun _ => rfl
  | initiateVerified verifier now r =>
    exact step_reserving .reserved rfl rfl (fun _ => rfl) fun _ => rfl
  | reserveVerified verifier now r =>
    -- The answer tells the vault as it stands after the call.
    have h := step_reserving (l := l) (c := .reserveVerified verifier now r)
      (.reservedIn (l.initiateVerified verifier now r).2.vault) rfl rfl (fun _ => rfl) fun _ => rfl
    simp only [call, reserveVerified]
    rcases hanswer : l.initiateVerified verifier now r with ⟨_ | op, after⟩
    · rw [hanswer] at h
      exact h
    · rw [hanswer] at h
      exact h
  | execute =>
    simp only [call, execute, settle]
    cases hpending : l.pending with
    | none => exact .refused (by simp [refusal?, hpending])
    | some op => exact .settled rfl (by simp [refusal?, hpending]) hpending hpending rfl
  | settle =>
    simp only [call, settle]
    cases hpending : l.pending with
    | none => exact .refused (by simp [refusal?, hpending])
    | some op => exact .settled rfl (by simp [refusal?, hpending]) hpending rfl rfl
  | reload =>
    rw [call, reloaded_eq]
    exact .reloaded rfl rfl

/-! ## Histories -/

/-- A call that has been made: what it found, what was asked and what was answered. -/
structure Event where
  before : Ledger
  call : Call
  answer : Except Stop Reply

def Event.reserved? (e : Event) : Option Operation :=
  e.answer.toOption.bind Reply.reserved?

def Event.settled? (e : Event) : Option Operation :=
  e.answer.toOption.bind (Reply.settled? e.before.pending)

def event (l : Ledger) (c : Call) : Event where
  before := l
  call := c
  answer := (l.call c).1

/-- What happens when calls are made one after another. -/
def history (l : Ledger) : List Call → List Event
  | [] => []
  | c :: cs => l.event c :: (l.call c).2.history cs

theorem run_cons (l : Ledger) (c : Call) (cs : List Call) :
    l.run (c :: cs) =
      ((l.call c).1 :: ((l.call c).2.run cs).1, ((l.call c).2.run cs).2) := rfl

theorem run_append (l : Ledger) (made more : List Call) :
    l.run (made ++ more) =
      ((l.run made).1 ++ ((l.run made).2.run more).1, ((l.run made).2.run more).2) := by
  induction made generalizing l with
  | nil => rfl
  | cons c made ih => rw [List.cons_append, run_cons, ih, run_cons, List.cons_append]

theorem answers_history (l : Ledger) (cs : List Call) :
    (l.history cs).map Event.answer = (l.run cs).1 := by
  induction cs generalizing l with
  | nil => rfl
  | cons c cs ih => rw [history, List.map_cons, ih, run_cons]; rfl

end Ledger

/-- An answer that no call gives while there are numbers left: the arithmetic left its range. -/
def Overflows : Except Stop Reply → Prop
  | .error (.overflow _) => True
  | .error (.refused _) | .ok _ => False

instance : DecidablePred Overflows
  | .error (.overflow _) => .isTrue trivial
  | .error (.refused _) | .ok _ => .isFalse id

end RetirementVault
