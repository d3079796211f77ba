import RetirementVault.Proofs.Ledger.Identity

/-!
# Reservations take turns

In the history of a ledger reservations and settlements alternate: nothing is reserved while
something is pending. So between two reservations there is one settlement and it is that of the
first (`settled_between`). Each reservation lowers the balance and nothing raises it, so the
balances that are told with reservations fall (`toldIn_falls`), and the last of them is what is
left (`balance_eq_last_told`).
-/

set_option autoImplicit false

namespace RetirementVault
namespace Ledger

/-- Whether a call settled a withdrawal, by its answer. -/
def Event.settles (e : Event) : Bool :=
  match e.answer with
  | .ok (.executed _) | .ok (.settled _ _) => true
  | .ok (.reserved _) | .ok (.reservedIn _ _) | .ok .reloaded | .ok .unreadable | .error _ => false

/-- The balance that is told with a reservation. -/
def Event.told? (e : Event) : Option Sats :=
  match e.answer with
  | .ok (.reservedIn vault _) => some vault.balance
  | .ok (.reserved _) | .ok (.executed _) | .ok (.settled _ _) | .ok .reloaded | .ok .unreadable
  | .error _ => none

/-! ## Cutting a history -/

/-- Where a history is cut, its calls are. -/
theorem history_eq_append {l : Ledger} {calls : List Call} {past later : List Event}
    (h : l.history calls = past ++ later) :
    ∃ made more, calls = made ++ more ∧ past = l.history made ∧
      later = (l.run made).2.history more := by
  induction past generalizing l calls with
  | nil => exact ⟨[], calls, rfl, rfl, h.symm⟩
  | cons e past ih =>
    cases calls with
    | nil => exact absurd h (by simp [history])
    | cons c calls =>
      rw [history, List.cons_append] at h
      obtain ⟨rfl, hrest⟩ := List.cons.inj h
      obtain ⟨made, more, rfl, rfl, rfl⟩ := ih hrest
      exact ⟨c :: made, more, rfl, rfl, rfl⟩

/-- A call of a history was made on the ledger that the calls before it have left. -/
theorem history_eq_cons {l : Ledger} {calls : List Call} {e : Event} {later : List Event}
    (h : l.history calls = e :: later) :
    ∃ c more, calls = c :: more ∧ e = l.event c ∧ later = (l.call c).2.history more := by
  cases calls with
  | nil => exact absurd h (by simp [history])
  | cons c more =>
    obtain ⟨rfl, rfl⟩ := List.cons.inj h
    exact ⟨c, more, rfl, rfl, rfl⟩

/-! ## Turns -/

/-- A call settles by its answer exactly when there is a withdrawal it has settled. -/
theorem settles_event (l : Ledger) (c : Call) :
    (l.event c).settles = (l.event c).settled?.isSome := by
  have hstep := step_call l c
  unfold event Event.settles Event.settled?
  generalize (l.call c).1 = answer at hstep
  generalize (l.call c).2 = after at hstep
  cases hstep with
  | refused | usedUp | reloaded => rfl
  | @reserved _ _ reply _ _ _ _ told =>
    cases reply with
    | reserved | reservedIn => rfl
    | executed | settled | reloaded | unreadable =>
      exact absurd told (by simp [Reply.reserved?])
  | @settled _ reply _ _ _ told =>
    cases reply with
    | executed | settled =>
      show true = Option.isSome _
      rw [Except.toOption, Option.bind_some, told, Option.isSome_some]
    | reserved | reservedIn | reloaded | unreadable =>
      exact absurd told (by simp [Reply.settled?])

theorem countP_settles (l : Ledger) (calls : List Call) :
    (l.history calls).countP Event.settles = (settledIn (l.history calls)).length := by
  induction calls generalizing l with
  | nil => rfl
  | cons c calls ih =>
    rw [history, List.countP_cons, settles_event, ih, settledIn_cons, List.length_append]
    cases (l.event c).settled? <;> simp [Nat.add_comm]

theorem accounts_of_history {l : Ledger} {calls : List Call}
    (h : ∀ e ∈ l.history calls, ¬ Overflows e.answer) :
    Accounts l (l.history calls) (l.run calls).2 := by
  refine accounts_history l calls fun answer hanswer => ?_
  rw [← answers_history] at hanswer
  obtain ⟨e, he, rfl⟩ := List.mem_map.mp hanswer
  exact h e he

/-- **Between two reservations one withdrawal is settled, and it is the first of the two**, if no
other is reserved in between. -/
theorem settled_between {l : Ledger} {calls : List Call} {before between later : List Event}
    {first second : Event} {op : Operation} (h : ∀ e ∈ l.history calls, ¬ Overflows e.answer)
    (hpast : l.history calls = before ++ first :: (between ++ second :: later))
    (hfirst : first.reserved? = some op) (hsecond : second.reserved?.isSome = true)
    (hnone : reservedIn between = []) :
    between.countP Event.settles = 1 ∧ settledIn between = [op] := by
  have hcalm : ∀ e ∈ between, ¬ Overflows e.answer := fun e he => h e (by simp [hpast, he])
  obtain ⟨made, more, -, -, hmore⟩ := history_eq_append hpast
  obtain ⟨c, rest, rfl, rfl, hrest⟩ := history_eq_cons hmore.symm
  obtain ⟨inside, outside, rfl, rfl, houtside⟩ := history_eq_append hrest.symm
  obtain ⟨c', _, rfl, rfl, -⟩ := history_eq_cons houtside.symm
  -- The first withdrawal is pending when the calls in between begin, and none is when they end.
  obtain ⟨_, _, _, _, _, _, _, hafter⟩ := reserved_event hfirst
  obtain ⟨op', hop'⟩ := Option.isSome_iff_exists.mp hsecond
  obtain ⟨_, _, _, hgrants, _⟩ := reserved_event hop'
  have hpairing := (accounts_of_history hcalm).pairing
  rw [hgrants.idle, hnone, hafter] at hpairing
  have hsettled : settledIn (((l.run made).2.call c).2.history inside) = [op] := by
    simpa [hafter, reserve] using hpairing
  exact ⟨by rw [countP_settles, hsettled]; rfl, hsettled⟩

/-! ## Balances -/

/-- The balance that is told is the one that is left, and it is lower than the one that was
found. -/
theorem told_event {l : Ledger} {c : Call} {b : Sats} (h : (l.event c).told? = some b) :
    b = (l.call c).2.balance ∧ b.toNat < l.balance.toNat := by
  unfold event Event.told? at h
  rcases hanswer : (l.call c).1 with _ | reply
  · exact absurd h (by simp [hanswer])
  cases reply with
  | reserved | executed | settled | reloaded | unreadable => exact absurd h (by simp [hanswer])
  | reservedIn vault op =>
    obtain rfl : vault.balance = b := by simpa [hanswer] using h
    have hreserved : (l.event c).reserved? = some op := by
      rw [event, Event.reserved?, hanswer]
      rfl
    obtain ⟨now, r, _, hgrants, _, _, rfl, hafter⟩ := reserved_event hreserved
    have hleft : vault.balance = (l.call c).2.balance :=
      congrArg Vault.balance (vault_of_answer hanswer rfl)
    have hbalance := hgrants.balance_sub
    have hpositive := hgrants.positive
    refine ⟨hleft, ?_⟩
    rw [hleft, hafter]
    show (l.balance - r.amount).toNat < _
    omega

/-- The balances that are told with reservations, in their order. -/
def toldIn (past : List Event) : List Sats :=
  past.filterMap Event.told?

theorem toldIn_cons (e : Event) (past : List Event) :
    toldIn (e :: past) = e.told?.toList ++ toldIn past :=
  filterMap_cons_toList _ _ _

theorem lt_of_mem_toldIn {l : Ledger} {calls : List Call} {b : Sats}
    (h : b ∈ toldIn (l.history calls)) : b.toNat < l.balance.toNat := by
  induction calls generalizing l with
  | nil => exact absurd h (by simp [history, toldIn])
  | cons c calls ih =>
    rw [history, toldIn_cons, List.mem_append, Option.mem_toList] at h
    rcases h with h | h
    · exact (told_event h).2
    · exact Nat.lt_of_lt_of_le (ih h) (l.balance_call_le c)

/-- **The balances that are told fall**, each below the one before it. -/
theorem toldIn_falls (l : Ledger) (calls : List Call) :
    (toldIn (l.history calls)).Pairwise (· > ·) := by
  induction calls generalizing l with
  | nil => exact List.Pairwise.nil
  | cons c calls ih =>
    rw [history, toldIn_cons]
    cases htold : (l.event c).told? with
    | none => exact ih _
    | some b =>
      obtain ⟨rfl, -⟩ := told_event htold
      refine List.pairwise_cons.mpr ⟨fun later hlater => ?_, ih _⟩
      exact UInt64.lt_iff_toNat_lt.mpr (lt_of_mem_toldIn hlater)

/-- A call that reserves nothing leaves the balance alone, unless it overflows. -/
theorem balance_of_reserved?_none {l : Ledger} {c : Call} (h : ¬ Overflows (l.call c).1)
    (hnone : (l.event c).reserved? = none) : (l.call c).2.balance = l.balance := by
  have hstep := step_call l c
  unfold event Event.reserved? at hnone
  rcases hcall : l.call c with ⟨answer, after⟩
  rw [hcall] at hstep h hnone
  cases hstep with
  | refused | settled | reloaded => rfl
  | usedUp => exact absurd trivial h
  | reserved _ _ _ _ told => exact absurd (hnone.symm.trans told) (by simp)

/-- **The balance that was told last is the balance that is left**, if one is told with every
reservation. -/
theorem balance_eq_last_told {l : Ledger} {calls : List Call}
    (h : ∀ e ∈ l.history calls, ¬ Overflows e.answer)
    (htold : ∀ e ∈ l.history calls, e.reserved?.isSome = true → e.told?.isSome = true) :
    (l.run calls).2.balance = (toldIn (l.history calls)).getLastD l.balance := by
  induction calls generalizing l with
  | nil => rfl
  | cons c calls ih =>
    have hrest := ih (l := (l.call c).2) (fun e he => h e (by simp [history, he]))
      fun e he => htold e (by simp [history, he])
    rw [run_cons, history, toldIn_cons, hrest]
    cases hb : (l.event c).told? with
    | some b =>
      obtain ⟨rfl, -⟩ := told_event hb
      rw [Option.toList_some, List.cons_append, List.nil_append, List.getLastD_cons]
    | none =>
      have hnone : (l.event c).reserved? = none := by
        have himp := htold (l.event c) (by simp [history])
        rw [hb] at himp
        simpa using himp
      rw [balance_of_reserved?_none (h (l.event c) (by simp [history])) hnone]
      rfl

end Ledger
end RetirementVault
