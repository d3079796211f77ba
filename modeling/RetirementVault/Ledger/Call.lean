import RetirementVault.Ledger.Record

/-!
# Calls on a ledger and runs of them

Everything a client can ask of a ledger as one type, so that what holds of every history can be
said of a list of calls. A ledger that several clients share is no different: their calls arrive
one after another, each with its whole check and change, so a history of the ledger is a list of
calls whoever made them.
-/

namespace RetirementVault

inductive Call where
  | initiate (now : Nat) (request : Request)
  | initiateVerified (verifier : Signing.Verifier) (now : Nat) (request : Request)
  | reserveVerified (verifier : Signing.Verifier) (now : Nat) (request : Request)
  | execute
  | settle
  /-- Writes the ledger out and goes on with what is read back. -/
  | reload

inductive Reply where
  | reserved (op : Operation)
  | reservedIn (vault : Vault) (op : Operation)
  | executed (vault : Vault)
  | settled (vault : Vault) (op : Operation)
  | reloaded
  /-- What was written out could not be read back. -/
  | unreadable
  deriving DecidableEq, Repr

namespace Ledger

/-- The ledger read back from its own text, if it can be. -/
def reloaded (l : Ledger) : Option Ledger :=
  ofBytes? (Text.Utf8.encode (l.text .compact))

def call (l : Ledger) : Call → Except Stop Reply × Ledger
  | .initiate now r =>
    let (answer, after) := l.initiate now r
    (answer.map .reserved, after)
  | .initiateVerified verifier now r =>
    let (answer, after) := l.initiateVerified verifier now r
    (answer.map .reserved, after)
  | .reserveVerified verifier now r =>
    let (answer, after) := l.reserveVerified verifier now r
    (answer.map fun (vault, op) => .reservedIn vault op, after)
  | .execute =>
    let (answer, after) := l.execute
    (answer.map .executed, after)
  | .settle =>
    let (answer, after) := l.settle
    (answer.map fun (vault, op) => .settled vault op, after)
  | .reload =>
    match l.reloaded with
    | some back => (.ok .reloaded, back)
    | none => (.ok .unreadable, l)

/-- Makes calls one after another and collects the answers. -/
def run (l : Ledger) : List Call → List (Except Stop Reply) × Ledger
  | [] => ([], l)
  | c :: cs =>
    let (answer, next) := l.call c
    let (answers, last) := next.run cs
    (answer :: answers, last)

end Ledger
end RetirementVault
