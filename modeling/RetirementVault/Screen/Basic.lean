import RetirementVault.Ledger.Basic

/-!
# The withdrawal screen

Everything a screen for planned withdrawals shows: the vault as it was last heard of, the three
inputs as typed, and the messages. A screen is a copy; it is not told when the ledger changes.
-/

namespace RetirementVault

/-- What a withdrawal screen shows. -/
structure Screen where
  label : String
  balance : Sats
  amountInput : String := ""
  destinationInput : String := ""
  signatureInput : String := ""
  /-- Said after a reservation. -/
  initiateResult : Option String := none
  pending : Option Operation
  /-- Said after a settlement. -/
  executeResult : Option String := none
  /-- Said after a rejection. -/
  error : Option String := none
  deriving DecidableEq, Repr

inductive Input where
  | amount
  | destination
  | signature
  deriving DecidableEq, Repr

namespace Screen

/-- A screen as it opens over a ledger: empty inputs and no messages. -/
def ofLedger (l : Ledger) : Screen where
  label := l.vault.label
  balance := l.balance
  pending := l.pending

def balanceLabel (s : Screen) : String :=
  Money.satsLabel s.balance

def input (s : Screen) : Input → String
  | .amount => s.amountInput
  | .destination => s.destinationInput
  | .signature => s.signatureInput

def enter (s : Screen) (field : Input) (text : String) : Screen :=
  match field with
  | .amount => { s with amountInput := text }
  | .destination => { s with destinationInput := text }
  | .signature => { s with signatureInput := text }

def rejected (s : Screen) (why : Refusal) : Screen :=
  { s with error := some why.message }

/-- The screen after its own reservation, which left a vault behind. -/
def reserved (s : Screen) (vault : Vault) (op : Operation) (notice : String) : Screen :=
  { s with
    balance := vault.balance
    initiateResult := some notice
    pending := some op
    executeResult := none
    error := none }

/-- The screen after its own settlement, which left a vault behind. -/
def settled (s : Screen) (vault : Vault) (notice : String) : Screen :=
  { s with
    balance := vault.balance
    executeResult := some notice
    pending := none
    error := none }

/-- The screen without messages. -/
def cleared (s : Screen) : Screen :=
  { s with initiateResult := none, executeResult := none, error := none }

@[simp] theorem input_enter_self (s : Screen) (field : Input) (text : String) :
    (s.enter field text).input field = text := by
  cases field <;> rfl

theorem input_enter_of_ne {s : Screen} {field other : Input} {text : String} (h : other ≠ field) :
    (s.enter field text).input other = s.input other := by
  cases field <;> cases other <;> simp_all [enter, input]

end Screen
end RetirementVault
