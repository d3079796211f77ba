import RetirementVault.Ledger.Record

/-!
# Vault settings

The label and balance a vault is opened with, as they are kept in a settings file. Each of them may
be left out, and the default stands in for it.
-/

namespace RetirementVault

/-- What a vault is opened with. -/
structure Settings where
  label : String := Vault.defaultLabel
  balance : Sats := Vault.defaultBalance
  deriving DecidableEq, Repr

namespace Settings

def toJson (s : Settings) : Json :=
  .ofMembers [("label", .ofText s.label), ("balance", .ofNat s.balance.toNat)]

def ofJson? (j : Json) : Option Settings := do
  let [label, balance] ← j.fields? ["label", "balance"] 0 | none
  return {
    label := ← (label.getD (.ofText Vault.defaultLabel)).string?
    balance := ← (balance.getD (.ofNat Vault.defaultBalance.toNat)).uint64? }

def ofBytes? (bytes : List UInt8) : Option Settings :=
  (Json.ofBytes? bytes).bind ofJson?

/-- The ledger that is opened with settings. -/
def openLedger (s : Settings) : Ledger :=
  Ledger.ofVault { label := s.label, balance := s.balance }

end Settings
end RetirementVault
