import RetirementVault.Proofs.Ledger.Answer
import RetirementVault.Proofs.Ledger.Failure
import RetirementVault.Screen.Action

/-!
# What an action on a screen does

A working screen makes at most one call on the ledger for an action, and what it shows afterwards
depends on nothing but the answer to that call. `ComesTo` lists everything an action can come to,
with what each of it presupposes, the way `Ledger.Step` does for a call; what screens show over time
is shown by going through it.

The balance and the withdrawal on a screen are taken from the ledger in the two cases in which the
ledger grants the call, and are left alone in all others.
-/

set_option autoImplicit false

namespace RetirementVault.Screen

def request (s : Screen) (amount : Sats) : Request where
  amount
  destination := s.destinationInput
  signature := s.signatureInput

def call? (s : Screen) (now : Nat) : Presenter → Action → Option Call
  | .working verifier, .initiate =>
    (parseAmount s.amountInput).toOption.map fun amount =>
      .reserveVerified verifier now (s.request amount)
  | .working _, .execute => some .settle
  | .working _, .enter _ _ | .working _, .clear | .mockUp, _ => none

/-- What an action on a screen over a ledger can come to. -/
inductive ComesTo (s : Screen) (l : Ledger) (now : Nat) : Presenter → Action → Step → Prop
  /-- Text is entered, and the last rejection is forgotten. -/
  | entered (verifier : Signing.Verifier) (field : Input) (text : String) :
    ComesTo s l now (.working verifier) (.enter field text)
      (.shown { s.enter field text with error := none } l)
  /-- The messages are cleared. -/
  | cleared (verifier : Signing.Verifier) :
    ComesTo s l now (.working verifier) .clear (.shown s.cleared l)
  /-- The amount cannot be read, and the ledger is not asked. -/
  | unread (verifier : Signing.Verifier) {why : Refusal}
    (unreadable : parseAmount s.amountInput = .error why) :
    ComesTo s l now (.working verifier) .initiate (.shown (s.rejected why) l)
  /-- The ledger refuses. -/
  | refused {verifier : Signing.Verifier} {action : Action} {c : Call} {why : Refusal}
    (calls : s.call? now (.working verifier) action = some c)
    (objection : l.refusal? c = some why) :
    ComesTo s l now (.working verifier) action (.shown (s.rejected why) l)
  /-- The ledger reserves. -/
  | reserved {verifier : Signing.Verifier} {c : Call} {op : Operation}
    (calls : s.call? now (.working verifier) .initiate = some c)
    (granted : l.call c = (.ok (.reservedIn (l.reserve op).vault op), l.reserve op)) :
    ComesTo s l now (.working verifier) .initiate
      (.shown (s.reserved (l.reserve op).vault op op.reservedNotice) (l.reserve op))
  /-- The ledger settles, whoever reserved. -/
  | settled (verifier : Signing.Verifier) {op : Operation} (pending : l.pending = some op) :
    ComesTo s l now (.working verifier) .execute
      (.shown (s.settled l.vault op.settledNotice) l.release)
  /-- The numbers of the ledger are used up, and the action ends there. -/
  | cutShort {verifier : Signing.Verifier} {c : Call}
    (calls : s.call? now (.working verifier) .initiate = some c) (full : l.FindsNoNumber c) :
    ComesTo s l now (.working verifier) .initiate
      { screen := s, ledger := (l.call c).2, told := false, overflow := some .add }
  /-- A mock-up remembers what is typed. -/
  | jotted (field : Input) (text : String) :
    ComesTo s l now .mockUp (.enter field text) (.shown (s.enter field text) l)
  /-- A mock-up ignores everything else. -/
  | ignored {action : Action} (other : ∀ field text, action ≠ .enter field text) :
    ComesTo s l now .mockUp action { screen := s, ledger := l, told := false }

variable {s : Screen} {l : Ledger} {now : Nat} {presenter : Presenter} {action : Action}
  {step : Step}

theorem initiate_of_amount {amount : Sats} (h : parseAmount s.amountInput = .ok amount)
    (verifier : Signing.Verifier) :
    s.initiate l verifier now =
      match l.reserveVerified verifier now (s.request amount) with
      | (.ok (vault, op), after) => .shown (s.reserved vault op op.reservedNotice) after
      | (.error (.refused why), after) => .shown (s.rejected why) after
      | (.error (.overflow which), after) =>
        { screen := s, ledger := after, told := false, overflow := some which } := by
  rw [initiate, h]
  rfl

theorem comesTo_initiate (s : Screen) (l : Ledger) (now : Nat) (verifier : Signing.Verifier) :
    ComesTo s l now (.working verifier) .initiate (s.initiate l verifier now) := by
  cases hamount : parseAmount s.amountInput with
  | error why =>
    rw [initiate, hamount]
    exact .unread verifier hamount
  | ok amount =>
    have hcalls : s.call? now (.working verifier) .initiate
        = some (.reserveVerified verifier now (s.request amount)) := by
      simp [call?, hamount, Except.toOption]
    have hreserve := l.reserveVerified_eq verifier now (s.request amount)
    rw [initiate_of_amount hamount]
    -- The ledger refuses, reserves or has no number left, and the screen follows it.
    cases hobjection : l.objection? verifier (s.request amount) with
    | some why =>
      rw [hobjection] at hreserve
      rw [hreserve]
      exact .refused hcalls hobjection
    | none =>
      by_cases hroom : l.nextSequence.toNat + 1 < UInt64.size
      · simp only [hobjection, if_pos hroom] at hreserve
        rw [hreserve]
        refine .reserved hcalls ?_
        rw [Ledger.call, hreserve]
        rfl
      · simp only [hobjection, if_neg hroom] at hreserve
        have hlt : l.nextSequence.toNat < UInt64.size := l.nextSequence.toNat_lt
        have hcut := ComesTo.cutShort hcalls ⟨rfl, hobjection, by omega⟩
        rw [Ledger.call, hreserve] at hcut
        rw [hreserve]
        exact hcut

/-- **An action comes to one of these things.** -/
theorem comesTo_act (s : Screen) (l : Ledger) (now : Nat) (presenter : Presenter)
    (action : Action) : ComesTo s l now presenter action (s.act l now presenter action) := by
  cases presenter with
  | working verifier =>
    cases action with
    | enter field text => exact .entered verifier field text
    | initiate => exact comesTo_initiate s l now verifier
    | execute =>
      simp only [act, execute, Ledger.settle]
      cases hpending : l.pending with
      | none => exact .refused rfl (by simp [Ledger.refusal?, hpending])
      | some op => exact .settled verifier hpending
    | clear => exact .cleared verifier
  | mockUp =>
    cases action with
    | enter field text => exact .jotted field text
    | initiate | execute | clear => exact .ignored (by simp)

theorem call?_of_unread {verifier : Signing.Verifier} {why : Refusal}
    (h : parseAmount s.amountInput = .error why) :
    s.call? now (.working verifier) .initiate = none := by
  rw [call?, h]
  rfl

/-- **An action leaves the ledger as its call leaves it**, and as it was if it makes none. -/
theorem ComesTo.ledger_eq (h : ComesTo s l now presenter action step) :
    step.ledger = (s.call? now presenter action).elim l fun c => (l.call c).2 := by
  cases h with
  | entered | cleared | jotted | ignored => rfl
  | unread _ unreadable => rw [call?_of_unread unreadable]; rfl
  | refused calls objection => rw [calls, Option.elim, Ledger.call_of_refusal objection]; rfl
  | reserved calls granted => rw [calls, Option.elim, granted]; rfl
  | settled _ pending => rw [call?, Option.elim, Ledger.call, Ledger.settle, pending]; rfl
  | cutShort calls => rw [calls]; rfl

/-! ## What is shown afterwards -/

/-- The action makes a call, and the ledger grants it. -/
def IsGranted (s : Screen) (l : Ledger) (now : Nat) (presenter : Presenter) (action : Action) :
    Prop :=
  ∃ c reply, s.call? now presenter action = some c ∧ (l.call c).1 = .ok reply

def withInputs (s other : Screen) : Screen :=
  { s with
    amountInput := other.amountInput
    destinationInput := other.destinationInput
    signatureInput := other.signatureInput }

theorem enter_eq_withInputs (s : Screen) (field : Input) (text : String) :
    s.enter field text = s.withInputs (s.enter field text) := by
  cases field <;> rfl

/-- What becomes of the copy of the ledger that a screen shows. -/
inductive Copies (s : Screen) (l : Ledger) (granted : Prop) (step : Step) : Prop
  /-- The call was granted, and the screen shows the ledger that it left. -/
  | renewed (yes : granted) (balance : step.screen.balance = step.ledger.balance)
    (pending : step.screen.pending = step.ledger.pending)
  /-- Nothing was granted, and neither the screen's copy nor the ledger has changed. -/
  | kept (no : ¬ granted) (balance : step.screen.balance = s.balance)
    (pending : step.screen.pending = s.pending) (ledger : step.ledger = l)

/-- **A working screen tells its watchers of every action**, goes on showing the label it showed,
and shows another balance and withdrawal only after a call of its own that was granted. -/
theorem ComesTo.shows {verifier : Signing.Verifier}
    (h : ComesTo s l now (.working verifier) action step) (hcalm : step.overflow = none) :
    step.told = true ∧ step.screen.label = s.label ∧
      Copies s l (s.IsGranted l now (.working verifier) action) step := by
  cases h with
  | entered _ field text =>
    rw [enter_eq_withInputs]
    exact ⟨rfl, rfl, .kept (fun ⟨_, _, hcalls, _⟩ => nomatch hcalls) rfl rfl rfl⟩
  | cleared => exact ⟨rfl, rfl, .kept (fun ⟨_, _, hcalls, _⟩ => nomatch hcalls) rfl rfl rfl⟩
  | unread _ unreadable =>
    refine ⟨rfl, rfl, .kept (fun ⟨_, _, hcalls, _⟩ => ?_) rfl rfl rfl⟩
    exact nomatch (call?_of_unread unreadable).symm.trans hcalls
  | refused calls objection =>
    refine ⟨rfl, rfl, .kept (fun ⟨c, reply, hcalls, hgranted⟩ => ?_) rfl rfl rfl⟩
    obtain rfl := Option.some.inj (hcalls.symm.trans calls)
    rw [Ledger.call_of_refusal objection] at hgranted
    exact nomatch hgranted
  | reserved calls granted => exact ⟨rfl, rfl, .renewed ⟨_, _, calls, by rw [granted]⟩ rfl rfl⟩
  | @settled _ op pending =>
    have hsettles : (l.call .settle).1 = .ok (.settled l.vault op) := by
      rw [Ledger.call, Ledger.settle, pending]
      rfl
    exact ⟨rfl, rfl, .renewed ⟨_, _, rfl, hsettles⟩ rfl rfl⟩
  | cutShort => exact absurd hcalm (by simp)

/-- **A mock-up changes nothing but its inputs.** -/
theorem ComesTo.mockUp (h : ComesTo s l now .mockUp action step) :
    step.ledger = l ∧ step.screen = s.withInputs step.screen := by
  cases h with
  | jotted field text => exact ⟨rfl, enter_eq_withInputs s field text⟩
  | ignored => exact ⟨rfl, rfl⟩

end RetirementVault.Screen
