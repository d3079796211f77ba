import RetirementVault.Signing.Verifier
import RetirementVault.Word

/-!
# The ledger

A vault with a label and a balance, at most one withdrawal that has been reserved and not yet
settled, and the number the next reservation will carry. Funds leave the balance when a withdrawal
is reserved; settling it only confirms that.

This file says what a ledger is, what can be wrong with a call, and what the calls do. A call
answers and leaves a ledger behind. It is refused without a change to the ledger, with one
exception that `initiate` states: the amount has left the balance before the reservation is given
its number, so a ledger whose numbers are used up loses it.
-/

namespace RetirementVault

structure Vault where
  label : String
  balance : Sats
  deriving DecidableEq, Repr

def Vault.defaultLabel : String := "Main Vault"

def Vault.defaultBalance : Sats := 1500000

structure Operation where
  id : String
  amount : Sats
  destination : String
  deriving DecidableEq, Repr

/-- The state of a vault and its withdrawals. -/
structure Ledger where
  vault : Vault
  /-- The withdrawal that is reserved and not yet settled. -/
  pending : Option Operation
  /-- The number of the next reservation. -/
  nextSequence : UInt64
  deriving DecidableEq, Repr

/-- Where a ledger stands between two calls. -/
inductive Phase where
  | idle
  | pending
  deriving DecidableEq, Repr

/-- A field of a request that may not be blank. -/
inductive RequestField where
  | destination
  | signature
  deriving DecidableEq, Repr

def RequestField.name : RequestField → String
  | .destination => "Destination pubkey"
  | .signature => "Saver signature"

inductive Refusal where
  | invalidAmount
  | missing (field : RequestField)
  | insufficient (requested available : Sats)
  | nothingPending
  | stillPending (id : String)
  | rejected (why : Signing.Fault)
  deriving DecidableEq, Repr

def Refusal.message : Refusal → String
  | .invalidAmount => "Amount must be a positive integer (sats)."
  | .missing field => field.name ++ " is required."
  | .insufficient requested available =>
    "Insufficient balance in vault: requested " ++ Text.decimal requested.toNat
      ++ " sats, available " ++ Text.decimal available.toNat ++ " sats."
  | .nothingPending => "No pending operation to execute."
  | .stillPending id =>
    "Operation " ++ id ++ " is still pending; execute it before initiating another."
  | .rejected why => "Saver signature rejected: " ++ why.message

/-- Why a call ends without an answer. -/
inductive Stop where
  /-- It was refused. -/
  | refused (why : Refusal)
  /-- There is no number left for a reservation. -/
  | overflow (which : Overflow)
  deriving DecidableEq, Repr

/-- Reads an amount from a form: a positive 64-bit number, with blanks around it allowed. -/
def parseAmount (text : String) : Except Refusal Sats :=
  match Text.readNatural? (Text.trimChars text.toList) with
  | some n => if 0 < n ∧ n < UInt64.size then .ok (UInt64.ofNat n) else .error .invalidAmount
  | none => .error .invalidAmount

/-- What is wrong with a request on its face, the first fault in the order of its fields. -/
def Request.fault? (r : Request) : Option Refusal :=
  if r.amount = 0 then some .invalidAmount
  else if Text.allBlank r.destination then some (.missing .destination)
  else if Text.allBlank r.signature then some (.missing .signature)
  else none

/-- The id of the reservation with a number, made at a time in milliseconds. -/
def operationId (now : Nat) (sequence : UInt64) : String :=
  "op-" ++ Text.decimal now ++ "-" ++ Text.decimal sequence.toNat

namespace Ledger

/-- A fresh ledger over a vault. -/
def ofVault (vault : Vault) : Ledger where
  vault
  pending := none
  nextSequence := 0

/-- The ledger of a vault that was given neither label nor balance. -/
def default : Ledger :=
  ofVault { label := Vault.defaultLabel, balance := Vault.defaultBalance }

instance : Inhabited Ledger := ⟨default⟩

def balance (l : Ledger) : Sats :=
  l.vault.balance

def phase (l : Ledger) : Phase :=
  match l.pending with
  | some _ => .pending
  | none => .idle

def withBalance (l : Ledger) (balance : Sats) : Ledger :=
  { l with vault := { l.vault with balance } }

/-- Reserves an amount for a destination at a time in milliseconds. The signature has to be there
and is not looked at.

The amount is taken out first and the number counted up after that, so an overflow of the number
leaves the ledger without the amount and without a reservation. -/
def initiate (l : Ledger) (now : Nat) (r : Request) : Except Stop Operation × Ledger :=
  match r.fault?, l.pending with
  | some why, _ => (.error (.refused why), l)
  | none, some op => (.error (.refused (.stillPending op.id)), l)
  | none, none =>
    if l.balance < r.amount then
      (.error (.refused (.insufficient r.amount l.balance)), l)
    else
      match Word.subtract l.balance r.amount with
      | .error which => (.error (.overflow which), l)
      | .ok rest =>
        let taken := l.withBalance rest
        match Word.add l.nextSequence 1 with
        | .error which => (.error (.overflow which), taken)
        | .ok next =>
          let op : Operation :=
            { id := operationId now l.nextSequence
              amount := r.amount
              destination := r.destination }
          (.ok op, { taken with pending := some op, nextSequence := next })

/-- Reserves an amount if a verifier accepts the request. -/
def initiateVerified (l : Ledger) (verifier : Signing.Verifier) (now : Nat) (r : Request) :
    Except Stop Operation × Ledger :=
  match r.fault? with
  | some why => (.error (.refused why), l)
  | none =>
    match verifier r with
    | .error why => (.error (.refused (.rejected why)), l)
    | .ok () => l.initiate now r

/-- Reserves an amount if a verifier accepts the request, and answers with the vault as it stands
right after. -/
def reserveVerified (l : Ledger) (verifier : Signing.Verifier) (now : Nat) (r : Request) :
    Except Stop (Vault × Operation) × Ledger :=
  match l.initiateVerified verifier now r with
  | (.ok op, after) => (.ok (after.vault, op), after)
  | (.error why, after) => (.error why, after)

/-- Confirms the reserved withdrawal. The balance is not touched. -/
def settle (l : Ledger) : Except Stop (Vault × Operation) × Ledger :=
  match l.pending with
  | some op => (.ok (l.vault, op), { l with pending := none })
  | none => (.error (.refused .nothingPending), l)

/-- Confirms the reserved withdrawal and answers with the vault alone. -/
def execute (l : Ledger) : Except Stop Vault × Ledger :=
  match l.settle with
  | (.ok (vault, _), after) => (.ok vault, after)
  | (.error why, after) => (.error why, after)

end Ledger
end RetirementVault
