import RetirementVault.Crypto.Sha2
import RetirementVault.Money
import RetirementVault.Text.Blank
import RetirementVault.Text.Utf8

/-!
# The request a saver signs

A planned withdrawal names an amount and a destination; the saver's signature covers both and
nothing else. What is signed is the hash of `message`: a fixed tag, the amount in eight bytes, the
destination without the blanks around it. As the first two have a fixed length, no byte can be
moved from one field into another.
-/

namespace RetirementVault

/-- A request for a planned withdrawal, as submitted. -/
structure Request where
  amount : Sats
  destination : String
  signature : String
  deriving DecidableEq, Repr

namespace Signing

/-- The tag that keeps signatures of this kind apart from all others. -/
def tag : String := "inssats-planned-withdrawal-v1"

/-- The eight bytes of an amount, the low ones first. -/
def amountBytes (amount : Sats) : List UInt8 :=
  (List.range 8).map fun i => UInt8.ofNat (amount.toNat / 256 ^ i)

/-- The bytes that stand for an amount and a destination. -/
def message (amount : Sats) (destination : String) : List UInt8 :=
  Text.Utf8.encode tag ++ amountBytes amount ++ Text.Utf8.encode (Text.trim destination)

/-- What is signed. -/
def digest (amount : Sats) (destination : String) : List UInt8 :=
  Crypto.sha256.hash (message amount destination)

end Signing
end RetirementVault
