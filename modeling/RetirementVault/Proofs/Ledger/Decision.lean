import RetirementVault.Proofs.Ledger.Answer

/-!
# How a request is decided

A request can be wrong in several ways at once and is told of one of them only: what is wrong with
its own fields comes before what the verifier says, and that before what the ledger says. So each
answer stands for one condition, in which all that comes earlier has been found in order.
`Decided` lists the answers with their conditions, which exclude each other and leave nothing out.

The verifier is asked only once the fields are in order, and those are looked at again afterwards;
since nothing has changed in between, the second look finds nothing.
-/

set_option autoImplicit false

namespace RetirementVault

/-- The request asks for something and says where it is to go. -/
structure Request.IsAddressed (r : Request) : Prop where
  asks : r.amount ≠ 0
  somewhere : Text.allBlank r.destination = false

/-- The request has all its fields. -/
structure Request.IsComplete (r : Request) : Prop extends r.IsAddressed where
  signed : Text.allBlank r.signature = false

namespace Ledger

/-- What a request is answered and what it leaves behind, given the verdict on its signature. -/
structure Decided (l : Ledger) (now : Nat) (r : Request) (verdict : Except Signing.Fault Unit)
    (answer : Except Stop Operation) (after : Ledger) : Prop where
  invalidAmount : answer = .error (.refused .invalidAmount) ↔ r.amount = 0
  noDestination : answer = .error (.refused (.missing .destination)) ↔
    r.amount ≠ 0 ∧ Text.allBlank r.destination = true
  noSignature : answer = .error (.refused (.missing .signature)) ↔
    r.IsAddressed ∧ Text.allBlank r.signature = true
  rejected : ∀ why, answer = .error (.refused (.rejected why)) ↔
    r.IsComplete ∧ verdict = .error why
  stillPending : ∀ id, answer = .error (.refused (.stillPending id)) ↔
    (r.IsComplete ∧ verdict = .ok ()) ∧ ∃ op, l.pending = some op ∧ op.id = id
  insufficient : ∀ requested available,
    answer = .error (.refused (.insufficient requested available)) ↔
      (r.IsComplete ∧ verdict = .ok () ∧ l.pending = none) ∧ l.balance < r.amount ∧
        r.amount = requested ∧ l.balance = available
  reserved : ∀ op, answer = .ok op ↔
    (r.IsComplete ∧ verdict = .ok () ∧ l.pending = none ∧ r.amount ≤ l.balance) ∧
      { id := operationId now l.nextSequence, amount := r.amount
        destination := r.destination } = op
  /-- A refusal changes nothing. -/
  kept : ∀ why, answer = .error why → after = l
  /-- A reservation takes its amount and its number, and is what is pending. -/
  taken : ∀ op, answer = .ok op → after.vault.label = l.vault.label ∧
    after.balance.toNat + r.amount.toNat = l.balance.toNat ∧ after.pending = some op ∧
      after.nextSequence.toNat = l.nextSequence.toNat + 1

/-- The first thing that speaks against a request, if anything does. -/
inductive Stands (l : Ledger) (r : Request) : Except Signing.Fault Unit → Option Refusal → Prop
  | invalidAmount (verdict : Except Signing.Fault Unit) (zero : r.amount = 0) :
    Stands l r verdict (some .invalidAmount)
  | noDestination (verdict : Except Signing.Fault Unit) (asks : r.amount ≠ 0)
    (blank : Text.allBlank r.destination = true) :
    Stands l r verdict (some (.missing .destination))
  | noSignature (verdict : Except Signing.Fault Unit) (addressed : r.IsAddressed)
    (blank : Text.allBlank r.signature = true) : Stands l r verdict (some (.missing .signature))
  | rejected (complete : r.IsComplete) (why : Signing.Fault) :
    Stands l r (.error why) (some (.rejected why))
  | stillPending (complete : r.IsComplete) {op : Operation} (busy : l.pending = some op) :
    Stands l r (.ok ()) (some (.stillPending op.id))
  | insufficient (complete : r.IsComplete) (idle : l.pending = none)
    (short : l.balance < r.amount) : Stands l r (.ok ()) (some (.insufficient r.amount l.balance))
  | nothing (complete : r.IsComplete) (idle : l.pending = none) (covered : r.amount ≤ l.balance) :
    Stands l r (.ok ()) none

variable {l : Ledger} {r : Request}

theorem stands_objection? (l : Ledger) (verifier : Signing.Verifier) (r : Request) :
    Stands l r (verifier r) (l.objection? verifier r) := by
  unfold objection? Request.fault?
  by_cases hzero : r.amount = 0
  · rw [if_pos hzero]
    exact .invalidAmount _ hzero
  rw [if_neg hzero]
  cases hdestination : Text.allBlank r.destination with
  | true => exact .noDestination _ hzero hdestination
  | false =>
    cases hsignature : Text.allBlank r.signature with
    | true => exact .noSignature _ ⟨hzero, hdestination⟩ hsignature
    | false =>
      -- From here on the request is complete, and it is for the verifier and the ledger to say.
      have hcomplete : r.IsComplete := ⟨⟨hzero, hdestination⟩, hsignature⟩
      cases hverdict : verifier r with
      | error why => exact .rejected hcomplete why
      | ok u =>
        cases hpending : l.pending with
        | some op => exact .stillPending hcomplete hpending
        | none =>
          by_cases hshort : l.balance < r.amount
          · simp only [Bool.false_eq_true, if_false, if_pos hshort]
            exact .insufficient hcomplete hpending hshort
          · simp only [Bool.false_eq_true, if_false, if_neg hshort]
            exact .nothing hcomplete hpending (UInt64.not_lt.mp hshort)

theorem decided_of_stands (now : Nat) {verdict : Except Signing.Fault Unit}
    {objection : Option Refusal} (h : Stands l r verdict objection)
    (hroom : l.nextSequence.toNat + 1 < UInt64.size) :
    Decided l now r verdict
      (objection.elim (.ok (l.operation now r)) fun why => .error (.refused why))
      (objection.elim (l.reserve (l.operation now r)) fun _ => l) := by
  cases h with
  | invalidAmount _ zero =>
    have hincomplete : ¬ r.IsAddressed := fun h => h.asks zero
    constructor <;> simp [zero, hincomplete, mt Request.IsComplete.toIsAddressed hincomplete]
  | noDestination _ asks blank =>
    have hincomplete : ¬ r.IsAddressed := fun h => by simp [h.somewhere] at blank
    constructor <;> simp [asks, blank, hincomplete, mt Request.IsComplete.toIsAddressed hincomplete]
  | noSignature _ addressed blank =>
    have hincomplete : ¬ r.IsComplete := fun h => by simp [h.signed] at blank
    constructor <;> simp [addressed, addressed.asks, addressed.somewhere, blank, hincomplete]
  | rejected complete why =>
    constructor <;> simp [complete, complete.asks, complete.somewhere, complete.signed]
  | stillPending complete busy =>
    constructor <;> simp [complete, complete.asks, complete.somewhere, complete.signed, busy]
  | insufficient complete idle short =>
    constructor <;> simp [complete, complete.asks, complete.somewhere, complete.signed, idle, short]
  | nothing complete idle covered =>
    have hpositive : 0 < r.amount.toNat :=
      Nat.pos_of_ne_zero fun hzero => complete.asks (UInt64.toNat_inj.mp hzero)
    have hgrants : l.Grants r := ⟨idle, hpositive, UInt64.le_iff_toNat_le.mp covered⟩
    constructor
    case taken =>
      rintro op ⟨⟩
      exact ⟨rfl, hgrants.balance_sub, rfl, Word.toNat_add_of_lt hroom⟩
    all_goals
      simp [complete, complete.asks, complete.somewhere, complete.signed, idle, covered, operation]

theorem decided_initiateVerified (l : Ledger) (verifier : Signing.Verifier) (now : Nat)
    (r : Request) (hroom : l.nextSequence.toNat + 1 < UInt64.size) :
    Decided l now r (verifier r) (l.initiateVerified verifier now r).1
      (l.initiateVerified verifier now r).2 := by
  have hdecided := decided_of_stands now (stands_objection? l verifier r) hroom
  rw [initiateVerified_eq]
  cases hobjection : l.objection? verifier r with
  | some why =>
    rw [hobjection] at hdecided
    exact hdecided
  | none =>
    rw [hobjection] at hdecided
    simp only [if_pos hroom]
    exact hdecided

/-- The call that answers with the vault as well decides the same, and tells the vault it leaves. -/
theorem reserveVerified_of_initiateVerified (l : Ledger) (verifier : Signing.Verifier) (now : Nat)
    (r : Request) :
    (l.reserveVerified verifier now r).1.map Prod.snd = (l.initiateVerified verifier now r).1 ∧
      (l.reserveVerified verifier now r).2 = (l.initiateVerified verifier now r).2 ∧
      ∀ vault op, (l.reserveVerified verifier now r).1 = .ok (vault, op) →
        vault = (l.reserveVerified verifier now r).2.vault := by
  unfold reserveVerified
  rcases l.initiateVerified verifier now r with ⟨_ | op, after⟩
  · exact ⟨rfl, rfl, nofun⟩
  · refine ⟨rfl, rfl, ?_⟩
    rintro _ _ ⟨⟩
    rfl

/-- **A request is decided in a fixed order**, as long as there is a number left: first its amount,
then its destination, then its signature, then the verdict on them, then what is pending, then the
balance; and where none of these stands in its way, and only there, it is reserved. The call that
asks no verifier decides as if the verdict were good, so it does the same as asking the verifier
that accepts everything. -/
theorem requests_are_decided_in_order (l : Ledger) (now : Nat) (r : Request)
    (hroom : l.nextSequence.toNat + 1 < UInt64.size) :
    (∀ verifier : Signing.Verifier,
      Decided l now r (verifier r) (l.initiateVerified verifier now r).1
        (l.initiateVerified verifier now r).2 ∧
      Decided l now r (verifier r) ((l.reserveVerified verifier now r).1.map Prod.snd)
        (l.reserveVerified verifier now r).2 ∧
      ∀ vault op, (l.reserveVerified verifier now r).1 = .ok (vault, op) →
        vault = (l.reserveVerified verifier now r).2.vault) ∧
    Decided l now r (.ok ()) (l.initiate now r).1 (l.initiate now r).2 ∧
    l.initiateVerified Signing.acceptAny now r = l.initiate now r := by
  refine ⟨fun verifier => ?_, ?_, (initiate_eq l now r).symm⟩
  · have hdecided := decided_initiateVerified l verifier now r hroom
    obtain ⟨hanswer, hafter, hvault⟩ := reserveVerified_of_initiateVerified l verifier now r
    exact ⟨hdecided, hanswer ▸ hafter ▸ hdecided, hvault⟩
  · rw [initiate_eq]
    exact decided_initiateVerified l Signing.acceptAny now r hroom

/-- At the last number but one: of four faults the destination is the one that is told, and where
there is none the whole balance is reserved. -/
theorem requests_are_decided_in_order_at_four_faults :
    let op : Operation := { id := "op-1-2", amount := 1, destination := "d" }
    let busy : Ledger := { vault := { label := "v", balance := 4 }, pending := op
                           nextSequence := 18446744073709551614 }
    let idle : Ledger := { busy with pending := none }
    let faulty : Request := { amount := 5, destination := "\u3000", signature := "" }
    let whole : Request := { amount := 4, destination := " d ", signature := "s" }
    let verifier : Signing.Verifier := fun _ => .error .mismatch
    idle.nextSequence.toNat + 1 < UInt64.size ∧
      (busy.initiateVerified verifier 0 faulty).1 = .error (.refused (.missing .destination)) ∧
      (idle.initiate 7 whole).1
        = .ok { id := operationId 7 18446744073709551614, amount := 4, destination := " d " } ∧
      (idle.initiate 7 whole).2.balance.toNat + 4 = 4 := by
  intro op busy idle faulty whole verifier
  have hroom : idle.nextSequence.toNat + 1 < UInt64.size := by decide
  have hbusy := (requests_are_decided_in_order busy 0 faulty hroom).1 verifier
  have hidle := (requests_are_decided_in_order idle 7 whole hroom).2.1
  have hcomplete : whole.IsComplete := ⟨⟨by decide, by decide⟩, by decide⟩
  have hreserved := (hidle.reserved _).mpr ⟨⟨hcomplete, rfl, rfl, by decide⟩, rfl⟩
  exact ⟨hroom, hbusy.1.noDestination.mpr ⟨by decide, by decide⟩, hreserved,
    (hidle.taken _ hreserved).2.1⟩

end Ledger
end RetirementVault
