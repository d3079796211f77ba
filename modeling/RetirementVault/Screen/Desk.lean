import RetirementVault.Ledger.Call
import RetirementVault.Screen.Action

/-!
# Several screens over one ledger

A desk has one ledger and any number of seats, each with a screen and the presenter behind it. A
move is an action at one seat or a call on the ledger that no screen hears of. A move changes the
screen of its own seat and no other.
-/

namespace RetirementVault

/-- A screen with its presenter. -/
structure Seat where
  presenter : Screen.Presenter
  screen : Screen

/-- Screens over one ledger. -/
structure Desk where
  ledger : Ledger
  seats : List Seat

inductive Desk.Move where
  | act (seat : Nat) (now : Nat) (action : Screen.Action)
  | call (c : Call)

structure Desk.Outcome where
  desk : Desk
  /-- The seat whose watchers are told. -/
  told : Option Nat
  /-- The answer to a call. -/
  answer : Option (Except Stop Reply)
  /-- The overflow that cut an action short. -/
  overflow : Option Overflow

namespace Desk

/-- A desk whose screens open over its ledger. -/
def ofPresenters (ledger : Ledger) (presenters : List Screen.Presenter) : Desk where
  ledger
  seats := presenters.map fun presenter => { presenter, screen := Screen.ofLedger ledger }

/-- Makes a move. An action at a seat that is not there is nothing. -/
def move (d : Desk) : Move → Outcome
  | .act i now action =>
    match d.seats[i]? with
    | none => { desk := d, told := none, answer := none, overflow := none }
    | some seat =>
      let step := seat.screen.act d.ledger now seat.presenter action
      { desk :=
          { ledger := step.ledger, seats := d.seats.set i { seat with screen := step.screen } }
        told := if step.told then some i else none
        answer := none
        overflow := step.overflow }
  | .call c =>
    let (answer, after) := d.ledger.call c
    { desk := { d with ledger := after }, told := none, answer := some answer, overflow := none }

/-- Makes moves one after another and collects what they came to. -/
def run (d : Desk) : List Move → List Outcome
  | [] => []
  | m :: ms => d.move m :: (d.move m).desk.run ms

end Desk
end RetirementVault
