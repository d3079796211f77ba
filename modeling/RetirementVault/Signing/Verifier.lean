import RetirementVault.Signing.Key
import RetirementVault.Signing.Request

/-!
# Verifiers

A verifier is asked before a reservation is made and answers with nothing or with a fault, in words
of its own if it likes. Two are given: `acceptAny`, for which the signature only has to be there,
and `ed25519`, which takes the destination as the saver's public key and checks the signature over
the request's digest.

A verifier is what it answers to each request. One that remembers what it was asked is another
verifier after every question.
-/

namespace RetirementVault.Signing

/-- Why a verifier turned a request down. -/
inductive Fault where
  | malformedKey (details : String)
  | malformedSignature (details : String)
  | mismatch
  deriving DecidableEq, Repr

def Fault.message : Fault → String
  | .malformedKey details => "malformed destination key: " ++ details
  | .malformedSignature details => "malformed signature: " ++ details
  | .mismatch => "signature does not match amount and destination"

/-- The check a request has to pass. -/
abbrev Verifier := Request → Except Fault Unit

def acceptAny : Verifier := fun _ => .ok ()

/-- The verifier that checks an Ed25519 signature under the destination's key. -/
def ed25519 : Verifier := fun r =>
  match parsePublicKey r.destination with
  | .error why => .error (.malformedKey why.message)
  | .ok key =>
    match parseSignature r.signature with
    | .error why => .error (.malformedSignature why.message)
    | .ok signature =>
      if Crypto.Ed25519.verify key (digest r.amount r.destination) signature then .ok ()
      else .error .mismatch

/-- The signature of a withdrawal in hexadecimal. -/
def sign (secret : List UInt8) (amount : Sats) (destination : String) : String :=
  Text.Hex.encode (Crypto.Ed25519.sign secret (digest amount destination))

end RetirementVault.Signing
