import RetirementVault.Proofs.Ledger.Turns

/-!
# Clients of one ledger

Any number of clients hold the same ledger. Each call is made with its whole check and change while
nobody else holds the ledger, so all that happens is one list of calls in the order in which their
clients got hold of it, and it makes no difference to a call whose call it is. What a client is
answered is still about the others: it can tell from its own answers what they have left.

`Linear` says how the answers of all clients hang together. Reservations and settlements take turns,
every settlement confirms the withdrawal whose turn it is, and the balances that are told with
reservations fall from each to the next, whoever is told. Among clients that race for an idle ledger
the first to get hold of it wins and all others are told of its withdrawal.
-/

set_option autoImplicit false

namespace RetirementVault

/-- A call on a shared ledger and the client that has made it. -/
structure Visit (Client : Type) where
  client : Client
  event : Ledger.Event

namespace Ledger

variable {Client : Type}

/-- What happens when clients make calls one after another. -/
def visits (l : Ledger) : List (Client × Call) → List (Visit Client)
  | [] => []
  | (client, c) :: turns => ⟨client, l.event c⟩ :: (l.call c).2.visits turns

/-- The calls alone make the history. -/
theorem events_visits (l : Ledger) (turns : List (Client × Call)) :
    (l.visits turns).map Visit.event = l.history (turns.map Prod.snd) := by
  induction turns generalizing l with
  | nil => rfl
  | cons turn turns ih => rw [visits, List.map_cons, ih, List.map_cons, history]

/-- How the answers that clients were given on the way from `start` to `now` hang together. -/
structure Linear (start : Ledger) (past : List (Visit Client)) (now : Ledger) : Prop where
  /-- Between two reservations with no other in between, whosever they are, one call settles, and
  what it settles is the first of the two. -/
  alternate : ∀ before first between second later op,
    past = before ++ first :: (between ++ second :: later) →
    first.event.reserved? = some op → second.event.reserved?.isSome = true →
    (∀ v ∈ between, v.event.reserved? = none) →
      between.countP (fun v => v.event.settles) = 1 ∧
        between.filterMap (fun v => v.event.settled?) = [op]
  /-- Every withdrawal is settled at most once, in its turn: the settlements and what is pending
  are the reservations one by one, after what was pending at the start. -/
  once : settledIn (past.map Visit.event) ++ now.pending.toList
    = start.pending.toList ++ reservedIn (past.map Visit.event)
  /-- No two of the reservations have the same id. -/
  distinct : ((reservedIn (past.map Visit.event)).map Operation.id).Nodup
  /-- The vault that is told with a reservation is the one that was found without the client's own
  amount. -/
  own : ∀ v ∈ past, ∀ verifier now r vault op,
    v.event.call = .reserveVerified verifier now r → v.event.answer = .ok (.reservedIn vault op) →
      vault.label = v.event.before.vault.label ∧
        vault.balance.toNat + r.amount.toNat = v.event.before.balance.toNat
  /-- The balances that are told fall, whoever is told. -/
  falls : (toldIn (past.map Visit.event)).Pairwise (· > ·)
  /-- The balance that was told last is the one that is left, if one is told with every
  reservation. -/
  last : (∀ v ∈ past, v.event.reserved?.isSome = true → v.event.told?.isSome = true) →
    now.balance = (toldIn (past.map Visit.event)).getLastD start.balance

/-- The vault that is told is the one that was found without the amount asked for. -/
theorem vault_of_reservedIn {l : Ledger} {c : Call} {verifier : Signing.Verifier} {now : Nat}
    {r : Request} {vault : Vault} {op : Operation} (hcall : c = .reserveVerified verifier now r)
    (hanswer : (l.call c).1 = .ok (.reservedIn vault op)) :
    vault.label = l.vault.label ∧ vault.balance.toNat + r.amount.toNat = l.balance.toNat := by
  have hreserved : (l.event c).reserved? = some op := by
    rw [event, Event.reserved?, hanswer]
    rfl
  obtain ⟨now', r', hasks, hgrants, _, _, hop, hafter⟩ := reserved_event hreserved
  obtain rfl : r = r' := by
    rw [hcall] at hasks
    exact congrArg Prod.snd (Option.some.inj hasks)
  obtain rfl := vault_of_answer hanswer rfl
  rw [hafter, hop]
  exact ⟨rfl, hgrants.balance_sub⟩

theorem mem_visits {l : Ledger} {turns : List (Client × Call)} {v : Visit Client}
    (h : v ∈ l.visits turns) : ∃ m : Ledger, ∃ c, v.event = m.event c := by
  induction turns generalizing l with
  | nil => exact absurd h (by simp [visits])
  | cons turn turns ih =>
    rcases List.mem_cons.mp h with rfl | h
    · exact ⟨l, turn.2, rfl⟩
    · exact ih h

/-! ## Racing for an idle ledger -/

/-- What would have been granted is refused once something is pending, and only for that. -/
theorem refusal?_of_pending {l m : Ledger} {c : Call} {op : Operation}
    (hasks : c.asks?.isSome = true) (hagreed : l.refusal? c = none)
    (hpending : m.pending = some op) : m.refusal? c = some (.stillPending op.id) := by
  have hobjection (verifier : Signing.Verifier) (r : Request)
      (hnone : l.objection? verifier r = none) :
      m.objection? verifier r = some (.stillPending op.id) := by
    unfold objection? at hnone ⊢
    split at hnone
    · exact absurd hnone (by simp)
    · exact absurd hnone (by simp)
    · exact absurd hnone (by simp)
    · next hfault hasked _ => rw [hfault, hasked, hpending]
  cases c with
  | initiate now r => exact hobjection _ r hagreed
  | initiateVerified verifier now r | reserveVerified verifier now r =>
    exact hobjection verifier r hagreed
  | execute | settle | reload => exact absurd hasks (by simp [Call.asks?])

/-- What would have been reserved is refused while a withdrawal is pending. -/
theorem call_of_pending {l m : Ledger} {c : Call} {op : Operation}
    (h : (l.event c).reserved?.isSome = true) (hpending : m.pending = some op) :
    m.call c = (.error (.refused (.stillPending op.id)), m) := by
  obtain ⟨own, hown⟩ := Option.isSome_iff_exists.mp h
  obtain ⟨now, r, hasks, _, hagreed, _⟩ := reserved_event hown
  exact call_of_refusal (refusal?_of_pending (by rw [hasks]; rfl) hagreed hpending)

/-- Whoever comes when it is too late is told of the withdrawal that is pending. -/
theorem visits_of_pending {l m : Ledger} {op : Operation} (hpending : m.pending = some op)
    (turns : List (Client × Call))
    (h : ∀ turn ∈ turns, (l.event turn.2).reserved?.isSome = true) :
    m.visits turns = turns.map (fun turn =>
      ⟨turn.1, { before := m, call := turn.2
                 answer := .error (.refused (.stillPending op.id)) }⟩) ∧
      (m.run (turns.map Prod.snd)).2 = m := by
  induction turns with
  | nil => exact ⟨rfl, rfl⟩
  | cons turn turns ih =>
    have hcall := call_of_pending (h turn (by simp)) hpending
    obtain ⟨hvisits, hrun⟩ := ih fun later hlater => h later (by simp [hlater])
    constructor
    · rw [visits, hcall, hvisits, List.map_cons, event, hcall]
    · rw [List.map_cons, run_cons, hcall]
      exact hrun

/-! ## All clients together -/

theorem linear_visits (l : Ledger) (turns : List (Client × Call))
    (h : ∀ v ∈ l.visits turns, ¬ Overflows v.event.answer) :
    Linear l (l.visits turns) (l.run (turns.map Prod.snd)).2 := by
  have hevents := events_visits l turns
  have hcalm : ∀ e ∈ l.history (turns.map Prod.snd), ¬ Overflows e.answer := by
    intro e he
    rw [← hevents] at he
    obtain ⟨v, hv, rfl⟩ := List.mem_map.mp he
    exact h v hv
  refine {
    alternate := ?_
    once := ?_
    distinct := ?_
    own := ?_
    falls := ?_
    last := ?_ }
  · intro before first between second later op hpast hfirst hsecond hnone
    rw [hpast] at hevents
    simp only [List.map_append, List.map_cons] at hevents
    have hnone' : reservedIn (between.map Visit.event) = [] := by
      rw [reservedIn, List.filterMap_map, List.filterMap_eq_nil_iff]
      exact hnone
    have hbetween := settled_between hcalm hevents.symm hfirst hsecond hnone'
    rw [List.countP_map, settledIn, List.filterMap_map] at hbetween
    exact hbetween
  · rw [hevents]
    exact (accounts_of_history hcalm).pairing
  · rw [hevents]
    exact nodup_ids l _
  · intro v hv verifier now r vault op hcall hanswer
    obtain ⟨m, c, hevent⟩ := mem_visits hv
    rw [hevent] at hcall hanswer ⊢
    exact vault_of_reservedIn hcall hanswer
  · rw [hevents]
    exact toldIn_falls l _
  · intro htold
    rw [hevents]
    refine balance_eq_last_told hcalm fun e he => ?_
    rw [← hevents] at he
    obtain ⟨v, hv, rfl⟩ := List.mem_map.mp he
    exact htold v hv

/-- **The clients of a ledger see one order of things.** Whoever calls what and in whatever order
they get hold of the ledger, as long as no call overflows: their answers hang together as those of
one run (`Linear`). And if every one of them asks for a reservation that would be granted to it
alone, the first one gets it, and all that happens is that the others are told so. -/
theorem clients_see_one_order (l : Ledger) (turns : List (Client × Call))
    (h : ∀ v ∈ l.visits turns, ¬ Overflows v.event.answer) :
    Linear l (l.visits turns) (l.run (turns.map Prod.snd)).2 ∧
    ∀ first later, turns = first :: later →
      (∀ turn ∈ turns, (l.event turn.2).reserved?.isSome = true) →
        ∃ op, (l.event first.2).reserved? = some op ∧
          l.visits turns = ⟨first.1, l.event first.2⟩ :: later.map (fun turn =>
            ⟨turn.1, { before := l.reserve op, call := turn.2
                       answer := .error (.refused (.stillPending op.id)) }⟩) ∧
          (l.run (turns.map Prod.snd)).2 = l.reserve op := by
  refine ⟨linear_visits l turns h, ?_⟩
  rintro first later rfl hgranted
  obtain ⟨op, hop⟩ := Option.isSome_iff_exists.mp (hgranted first (by simp))
  obtain ⟨_, _, _, _, _, _, _, hafter⟩ := reserved_event hop
  have hpending : (l.reserve op).pending = some op := rfl
  obtain ⟨hvisits, hrun⟩ := visits_of_pending hpending later
    fun turn hturn => hgranted turn (by simp [hturn])
  refine ⟨op, hop, ?_, ?_⟩
  · rw [visits, hafter, hvisits]
  · rw [List.map_cons, run_cons, hafter]
    exact hrun

/-- Three clients, with refused calls, a settlement by another client than the one that reserved,
and a race. -/
theorem clients_see_one_order_of_three :
    let l : Ledger := Ledger.ofVault { label := "v", balance := 100 }
    let r (amount : Sats) : Request := { amount, destination := "d", signature := "s" }
    let reserve (amount : Sats) (now : Nat) : Call :=
      .reserveVerified Signing.acceptAny now (r amount)
    let turns : List (String × Call) :=
      [("a", reserve 5 1), ("b", reserve 7 2), ("b", .settle), ("c", reserve 9 3), ("a", .execute),
        ("c", .settle)]
    let race : List (String × Call) := [("a", reserve 5 1), ("b", .initiate 1 (r 7))]
    Linear l (l.visits turns) (l.run (turns.map Prod.snd)).2 ∧
      (l.run (turns.map Prod.snd)).2.balance = 86 ∧
      ∃ op, (l.event (reserve 5 1)).reserved? = some op ∧
        (l.run (race.map Prod.snd)).2 = l.reserve op := by
  intro l r reserve turns race
  have hcalm : ∀ v ∈ l.visits turns, ¬ Overflows v.event.answer := by decide
  have hcalm' : ∀ v ∈ l.visits race, ¬ Overflows v.event.answer := by decide
  obtain ⟨op, hop, -, hrun⟩ := (clients_see_one_order l race hcalm').2 _ _ rfl (by decide)
  exact ⟨(clients_see_one_order l turns hcalm).1, by decide, op, hop, hrun⟩

end Ledger
end RetirementVault
