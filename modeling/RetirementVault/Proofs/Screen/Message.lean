import Mathlib.Data.List.DropRight
import RetirementVault.Proofs.Screen.Desk

/-!
# What screens say

A screen has three places for messages, and each of its actions writes some of them and wipes
others. What stands there later is settled by what the screen's own actions came to, and by nothing
that anybody else does: the last action, if it was rejected; the last reservation, if the messages
have not been cleared since; the last settlement, if neither that nor a reservation has come since
(`Tells`). What stands in an input is what was entered there last.

What an action came to is read off the ledger's answer (`Deed.ofAnswer?`) and not off the screen, so
the two are independent accounts of one run.
-/

set_option autoImplicit false

namespace RetirementVault

namespace Screen

/-- The last thing that is picked out of a history, as long as everything since it keeps it. -/
def lastKept {α β : Type} (keeps : α → Bool) (pick : α → Option β) (past : List α) : Option β :=
  ((past.rtakeWhile keeps).filterMap pick).getLast?

theorem getLast?_filterMap_concat {α β : Type} (pick : α → Option β) (past : List α) (a : α) :
    ((past ++ [a]).filterMap pick).getLast? = (pick a).or (past.filterMap pick).getLast? := by
  rw [List.filterMap_append, List.getLast?_append]
  cases h : pick a <;> simp [h]

theorem lastKept_concat {α β : Type} (keeps : α → Bool) (pick : α → Option β) (past : List α)
    (a : α) : lastKept keeps pick (past ++ [a])
      = if keeps a then (pick a).or (lastKept keeps pick past) else none := by
  unfold lastKept
  split
  · next h => rw [List.rtakeWhile_concat_pos _ _ _ h, getLast?_filterMap_concat]
  · next h => rw [List.rtakeWhile_concat_neg _ _ _ h, List.filterMap_nil, List.getLast?_nil]

/-- What an action on a working screen has come to. -/
inductive Deed where
  | entered (field : Input) (text : String)
  | cleared
  | reserved (op : Operation)
  | settled (op : Operation)
  | rejected (why : Refusal)
  deriving DecidableEq

namespace Deed

/-- What was entered in an input. -/
def entry? (field : Input) : Deed → Option String
  | .entered other text => if other = field then some text else none
  | .cleared | .reserved _ | .settled _ | .rejected _ => none

def reservation? : Deed → Option Operation
  | .reserved op => some op
  | .entered .. | .cleared | .settled _ | .rejected _ => none

def settlement? : Deed → Option Operation
  | .settled op => some op
  | .entered .. | .cleared | .reserved _ | .rejected _ => none

def rejection? : Deed → Option Refusal
  | .rejected why => some why
  | .entered .. | .cleared | .reserved _ | .settled _ => none

/-- A deed that takes back nothing that was said of a reservation. -/
def keepsReservation (d : Deed) : Bool :=
  d ≠ .cleared

/-- A deed that takes back nothing that was said of a settlement. -/
def keepsSettlement (d : Deed) : Bool :=
  d ≠ .cleared ∧ d.reservation? = none

/-- What an answer of the ledger makes of the action that called it. -/
def ofAnswer? : Except Stop Reply → Option Deed
  | .ok (.reserved op) | .ok (.reservedIn _ op) => some (.reserved op)
  | .ok (.settled _ op) => some (.settled op)
  | .error (.refused why) => some (.rejected why)
  | .ok (.executed _) | .ok .reloaded | .ok .unreadable | .error (.overflow _) => none

end Deed

/-- What a working screen says after some deeds. -/
structure Tells (deeds : List Deed) (s : Screen) : Prop where
  /-- The last deed, if it was a rejection. -/
  error : s.error = (deeds.getLast?.bind Deed.rejection?).map Refusal.message
  /-- The last reservation since the messages were cleared. -/
  initiateResult : s.initiateResult =
    (lastKept Deed.keepsReservation Deed.reservation? deeds).map Operation.reservedNotice
  /-- The last settlement since the messages were cleared or something was reserved. -/
  executeResult : s.executeResult =
    (lastKept Deed.keepsSettlement Deed.settlement? deeds).map Operation.settledNotice
  /-- What was entered last. -/
  input : ∀ field, s.input field = (deeds.filterMap (Deed.entry? field)).getLast?.getD ""

/-! ## One action -/

/-- What an action comes to; nothing if the arithmetic leaves its range on the way. -/
def deed? (s : Screen) (l : Ledger) (now : Nat) : Presenter → Action → Option Deed
  | .working _, .enter field text => some (.entered field text)
  | .working verifier, .initiate =>
    match parseAmount s.amountInput with
    | .error why => some (.rejected why)
    | .ok amount => Deed.ofAnswer? (l.call (.reserveVerified verifier now (s.request amount))).1
  | .working _, .execute => Deed.ofAnswer? (l.call .settle).1
  | .working _, .clear => some .cleared
  | .mockUp, _ => none

variable {s : Screen} {l : Ledger} {now : Nat} {action : Action} {step : Step} {deeds : List Deed}

theorem deed?_of_call? {verifier : Signing.Verifier} {c : Call}
    (h : s.call? now (.working verifier) action = some c) :
    s.deed? l now (.working verifier) action = Deed.ofAnswer? (l.call c).1 := by
  cases action with
  | enter | clear => exact nomatch h
  | execute =>
    obtain rfl := Option.some.inj h
    rfl
  | initiate =>
    unfold call? at h
    unfold deed?
    cases hamount : parseAmount s.amountInput with
    | error why => exact nomatch hamount ▸ h
    | ok amount =>
      rw [hamount] at h
      obtain rfl := Option.some.inj h
      rfl

theorem tells_ofLedger (l : Ledger) : Tells [] (.ofLedger l) where
  error := rfl
  initiateResult := rfl
  executeResult := rfl
  input field := by cases field <;> rfl

theorem Tells.entered (h : Tells deeds s) (field : Input) (text : String) :
    Tells (deeds ++ [.entered field text]) { s.enter field text with error := none } where
  error := by simp [Deed.rejection?]
  initiateResult := by
    rw [lastKept_concat]
    cases field <;> exact h.initiateResult
  executeResult := by
    rw [lastKept_concat]
    cases field <;> exact h.executeResult
  input other := by
    have hinput : ({ s.enter field text with error := none } : Screen).input other
        = (s.enter field text).input other := by
      cases other <;> rfl
    rw [hinput, getLast?_filterMap_concat]
    by_cases hother : other = field
    · subst hother
      rw [input_enter_self, Deed.entry?, if_pos rfl]
      rfl
    · rw [input_enter_of_ne hother, h.input other, Deed.entry?, if_neg (Ne.symm hother)]
      rfl

theorem Tells.input_concat {d : Deed} {later : Screen} (h : Tells deeds s)
    (hdeed : ∀ field, d.entry? field = none) (hsame : ∀ field, later.input field = s.input field)
    (field : Input) :
    later.input field = ((deeds ++ [d]).filterMap (Deed.entry? field)).getLast?.getD "" := by
  rw [getLast?_filterMap_concat, hdeed, Option.none_or, hsame]
  exact h.input field

theorem Tells.cleared (h : Tells deeds s) : Tells (deeds ++ [.cleared]) s.cleared where
  error := by simp [Deed.rejection?, Screen.cleared]
  initiateResult := by simp [lastKept_concat, Deed.keepsReservation, Screen.cleared]
  executeResult := by simp [lastKept_concat, Deed.keepsSettlement, Screen.cleared]
  input := h.input_concat (fun _ => rfl) fun field => by cases field <;> rfl

theorem Tells.rejected (h : Tells deeds s) (why : Refusal) :
    Tells (deeds ++ [.rejected why]) (s.rejected why) where
  error := by simp [Deed.rejection?, Screen.rejected]
  initiateResult := by
    rw [lastKept_concat]
    exact h.initiateResult
  executeResult := by
    rw [lastKept_concat]
    exact h.executeResult
  input := h.input_concat (fun _ => rfl) fun field => by cases field <;> rfl

/-- A reservation wipes what was said of an earlier settlement. -/
theorem Tells.reserved (h : Tells deeds s) (vault : Vault) (op : Operation) :
    Tells (deeds ++ [.reserved op]) (s.reserved vault op op.reservedNotice) where
  error := by simp [Deed.rejection?, Screen.reserved]
  initiateResult := by
    simp [lastKept_concat, Deed.keepsReservation, Deed.reservation?, Screen.reserved]
  executeResult := by
    simp [lastKept_concat, Deed.keepsSettlement, Deed.reservation?, Screen.reserved]
  input := h.input_concat (fun _ => rfl) fun field => by cases field <;> rfl

/-- A settlement leaves what was said of the reservation before it. -/
theorem Tells.settled (h : Tells deeds s) (vault : Vault) (op : Operation) :
    Tells (deeds ++ [.settled op]) (s.settled vault op.settledNotice) where
  error := by simp [Deed.rejection?, Screen.settled]
  initiateResult := by
    rw [lastKept_concat]
    exact h.initiateResult
  executeResult := by
    simp [lastKept_concat, Deed.keepsSettlement, Deed.reservation?, Deed.settlement?,
      Screen.settled]
  input := h.input_concat (fun _ => rfl) fun field => by cases field <;> rfl

/-- **A screen that says what it should goes on doing so**, whatever the action comes to. -/
theorem Tells.act {verifier : Signing.Verifier} (h : Tells deeds s)
    (hcomes : ComesTo s l now (.working verifier) action step) (hcalm : step.overflow = none) :
    Tells (deeds ++ (s.deed? l now (.working verifier) action).toList) step.screen := by
  cases hcomes with
  | entered _ field text => exact h.entered field text
  | cleared => exact h.cleared
  | unread _ unreadable =>
    rw [deed?, unreadable]
    exact h.rejected _
  | refused calls objection =>
    rw [deed?_of_call? calls, Ledger.call_of_refusal objection]
    exact h.rejected _
  | reserved calls granted =>
    rw [deed?_of_call? calls, granted]
    exact h.reserved _ _
  | @settled _ op pending =>
    have hsettles : (l.call .settle).1 = .ok (.settled l.vault op) := by
      rw [Ledger.call, Ledger.settle, pending]
      rfl
    rw [deed?, hsettles]
    exact h.settled _ _
  | cutShort => exact absurd hcalm (by simp)

end Screen

namespace Desk

/-! ## Many screens over time -/

/-- What a scene came to for the seat, if it was an action at it. -/
def Scene.deed? (x : Scene) (i : Nat) : Option Screen.Deed :=
  match x.happening with
  | .moves (.act j now action) =>
    if j = i then
      x.before.seats[i]?.bind fun seat =>
        seat.screen.deed? x.before.ledger now seat.presenter action
    else none
  | .opens _ | .displays _ | .turns _ _ | .moves (.call _) => none

/-- What the actions at a seat have come to, in their order. -/
def deedsAt (i : Nat) (past : List Scene) : List Screen.Deed :=
  past.filterMap fun x => x.deed? i

/-- Every working screen says what it should, and where nobody sits nothing has been done. -/
structure Telling (past : List Scene) (now : Desk) : Prop where
  seated : ∀ (i : Nat) (seat : Seat) (verifier : Signing.Verifier), now.seats[i]? = some seat →
    seat.presenter = .working verifier → Screen.Tells (deedsAt i past) seat.screen
  empty : ∀ i, now.seats.length ≤ i → deedsAt i past = []

variable {d : Desk} {h : Happening} {i : Nat} {seat : Seat} {past : List Scene}

theorem deedsAt_concat (i : Nat) (past : List Scene) (x : Scene) :
    deedsAt i (past ++ [x]) = deedsAt i past ++ (x.deed? i).toList := by
  rw [deedsAt, List.filterMap_append]
  cases hdeed : x.deed? i <;> simp [deedsAt, hdeed]

theorem deed?_of_elsewhere (helse : ¬ h.IsAt i) : Scene.deed? ⟨d, h⟩ i = none := by
  cases h with
  | opens | displays | turns => rfl
  | moves m =>
    cases m with
    | call c => rfl
    | act j now action =>
      refine if_neg ?_
      rintro rfl
      exact helse ⟨now, action, rfl⟩

theorem deed?_of_no_seat (hnone : d.seats.length ≤ i) : Scene.deed? ⟨d, h⟩ i = none := by
  by_cases hat : h.IsAt i
  · obtain ⟨now, action, rfl⟩ := hat
    simp [Scene.deed?, List.getElem?_eq_none hnone]
  · exact deed?_of_elsewhere hat

theorem length_le_happen (d : Desk) (h : Happening) :
    d.seats.length ≤ (d.happen h).desk.seats.length := by
  cases h with
  | opens | displays | turns => simp [happen, add]
  | moves m =>
    cases m with
    | call c => exact Nat.le_refl _
    | act j now action =>
      cases hseat : d.seats[j]? with
      | none => rw [happen, move_of_no_seat hseat]
      | some seat => rw [happen, move_of_seat hseat, List.length_set]

theorem Telling.happen (htold : Telling past d) (hcalm : ¬ Scene.Panics ⟨d, h⟩) :
    Telling (past ++ [⟨d, h⟩]) (d.happen h).desk where
  seated := by
    intro i seat verifier hseat hworks
    rw [deedsAt_concat]
    cases seated_happen hseat with
    | @kept _ _ old elsewhere before =>
      rw [deed?_of_elsewhere elsewhere, Option.toList_none, List.append_nil]
      rcases aside_cases h i old with ⟨kind, _, hbefore, haside⟩ | ⟨hmock, haside⟩
      · rw [haside]
        exact htold.seated i old kind before hbefore
      · rw [haside, hmock] at hworks
        exact nomatch hworks
    | opened =>
      rw [htold.empty _ (Nat.le_refl _)]
      exact Screen.tells_ofLedger d.ledger
    | displayed => exact nomatch hworks
    | @acted _ now action old before =>
      have hcomes := old.screen.comesTo_act d.ledger now old.presenter action
      have hnone := overflow_of_calm before hcalm
      have hdeed : Scene.deed? ⟨d, .moves (.act i now action)⟩ i
          = old.screen.deed? d.ledger now old.presenter action := by
        simp [Scene.deed?, before]
      have hbefore := htold.seated i old verifier before hworks
      rw [show old.presenter = .working verifier from hworks] at hcomes hnone hdeed ⊢
      rw [hdeed]
      exact hbefore.act hcomes hnone
  empty := by
    intro i hnone
    have hbefore := Nat.le_trans (length_le_happen d h) hnone
    rw [deedsAt_concat, deed?_of_no_seat hbefore, htold.empty i hbefore]
    rfl

theorem Telling.run (hs : List Happening) (htold : Telling past d)
    (hcalm : ∀ x ∈ d.scenes hs, ¬ x.Panics) : Telling (past ++ d.scenes hs) (d.after hs) := by
  -- On what happens, with the scenes before it growing at their end.
  induction hs generalizing past d with
  | nil => exact (List.append_nil past).symm ▸ htold
  | cons h hs ih =>
    have hfirst := htold.happen (hcalm ⟨d, h⟩ (by simp [scenes]))
    have hrest := ih hfirst fun x hx => hcalm x (by simp [scenes, hx])
    rwa [List.append_assoc] at hrest

/-- **What a screen says is what its own actions came to.** Whatever screens are opened over a
ledger and whatever is done on them and behind their backs, as long as nothing overflows: at every
point the messages and the inputs of a working screen are those its own deeds so far call for. -/
theorem screens_say_own_deeds (l : Ledger) (hs : List Happening)
    (hcalm : ∀ x ∈ (ofPresenters l []).scenes hs, ¬ x.Panics) (made : List Happening)
    (hmade : made <+: hs) (i : Nat) (seat : Seat) (verifier : Signing.Verifier)
    (hseat : ((ofPresenters l []).after made).seats[i]? = some seat)
    (hworks : seat.presenter = .working verifier) :
    Screen.Tells (deedsAt i ((ofPresenters l []).scenes made)) seat.screen := by
  obtain ⟨more, rfl⟩ := hmade
  have hnobody : Telling [] (ofPresenters l []) := {
    seated := fun i seat _ hseat => nomatch hseat
    empty := fun _ _ => rfl }
  refine (hnobody.run made fun x hx => hcalm x ?_).seated i seat verifier hseat hworks
  rw [scenes_append]
  exact List.mem_append_left _ hx

/-- A screen reserves, a call settles behind its back, and the screen is told there is nothing to
settle. The reservation is still spoken of, until something is cleared, and so is the rejection,
until something is entered. -/
theorem screens_say_own_deeds_of_rejected :
    let l : Ledger := Ledger.ofVault { label := "v", balance := 100 }
    let hs : List Happening := [.opens Signing.acceptAny,
      .moves (.act 0 0 (.enter .amount " 5 ")), .moves (.act 0 0 (.enter .destination "d")),
      .moves (.act 0 0 (.enter .signature "s")), .moves (.act 0 1 .initiate),
      .moves (.call .settle), .moves (.act 0 2 .execute)]
    let desk := (ofPresenters l []).after hs
    (∀ seat, desk.seats[0]? = some seat →
      Screen.Tells (deedsAt 0 ((ofPresenters l []).scenes hs)) seat.screen) ∧
      desk.seats.map (fun s => (s.screen.initiateResult, s.screen.executeResult, s.screen.error))
        = [(some "Pending operation created (id=op-1-0).", none,
            some "No pending operation to execute.")] ∧
      desk.seats.map (fun s => s.screen.amountInput) = [" 5 "] := by
  intro l hs desk
  have hcalm : ∀ x ∈ (ofPresenters l []).scenes hs, ¬ x.Panics := by decide
  refine ⟨fun seat hseat => ?_, by decide, by decide⟩
  have hworks : seat.presenter = .working Signing.acceptAny := by
    obtain rfl := Option.some.inj hseat
    rfl
  exact screens_say_own_deeds l hs hcalm hs List.prefix_rfl 0 seat _ hseat hworks

end Desk
end RetirementVault
