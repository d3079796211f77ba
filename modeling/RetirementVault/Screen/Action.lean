import RetirementVault.Ledger.Notice
import RetirementVault.Screen.Basic

/-!
# Acting on a screen

What happens when the saver types, initiates, executes or clears. Two presenters stand behind a
screen: one at work on a ledger, and a mock-up that remembers what is typed and does nothing else.

A step says what became of the screen and the ledger and whether whoever watches the screen is
told. Watchers of a working screen are told after every action, whether it changed anything or not;
only an overflow in the ledger cuts the action short, before the screen is touched.
-/

namespace RetirementVault.Screen

inductive Action where
  | enter (field : Input) (text : String)
  | initiate
  | execute
  | clear
  deriving DecidableEq, Repr

structure Step where
  screen : Screen
  ledger : Ledger
  /-- Whether the watchers of the screen are told. -/
  told : Bool
  /-- The overflow that cut the action short. -/
  overflow : Option Overflow := none
  deriving DecidableEq

/-- The step that shows a screen to its watchers. -/
def Step.shown (screen : Screen) (ledger : Ledger) : Step :=
  { screen, ledger, told := true }

/-- Who stands behind a screen. -/
inductive Presenter where
  /-- Works on the ledger and lets a verifier decide on reservations. -/
  | working (verifier : Signing.Verifier)
  /-- Remembers what is typed. -/
  | mockUp

/-- Reserves what the inputs ask for. -/
def initiate (s : Screen) (l : Ledger) (verifier : Signing.Verifier) (now : Nat) : Step :=
  match parseAmount s.amountInput with
  | .error why => .shown (s.rejected why) l
  | .ok amount =>
    let request : Request :=
      { amount, destination := s.destinationInput, signature := s.signatureInput }
    match l.reserveVerified verifier now request with
    | (.ok (vault, op), after) => .shown (s.reserved vault op op.reservedNotice) after
    | (.error (.refused why), after) => .shown (s.rejected why) after
    | (.error (.overflow which), after) =>
      { screen := s, ledger := after, told := false, overflow := some which }

/-- Settles what is pending on the ledger, whoever reserved it. -/
def execute (s : Screen) (l : Ledger) : Step :=
  match l.settle with
  | (.ok (vault, op), after) => .shown (s.settled vault op.settledNotice) after
  | (.error (.refused why), after) => .shown (s.rejected why) after
  | (.error (.overflow which), after) =>
    { screen := s, ledger := after, told := false, overflow := some which }

/-- Takes an action on a screen over a ledger, at a time in milliseconds. -/
def act (s : Screen) (l : Ledger) (now : Nat) : Presenter → Action → Step
  | .working _, .enter field text => .shown { s.enter field text with error := none } l
  | .working verifier, .initiate => s.initiate l verifier now
  | .working _, .execute => s.execute l
  | .working _, .clear => .shown s.cleared l
  | .mockUp, .enter field text => .shown (s.enter field text) l
  | .mockUp, _ => { screen := s, ledger := l, told := false }

end RetirementVault.Screen
