import RetirementVault.Json.Field
import RetirementVault.Json.Tree
import RetirementVault.Json.Writer
import RetirementVault.Ledger.Basic

/-!
# The stored form of a ledger

How a vault, a reserved withdrawal and a whole ledger are written as JSON and read back. In an
object the withdrawal may be left out, which means there is none; the number of the next
reservation may be left out anywhere, which means zero.
-/

namespace RetirementVault

namespace Vault

def toJson (v : Vault) : Json :=
  .ofMembers [("label", .ofText v.label), ("balance", .ofNat v.balance.toNat)]

def ofJson? (j : Json) : Option Vault := do
  let [some label, some balance] ← j.fields? ["label", "balance"] 2 | none
  return { label := ← label.string?, balance := ← balance.uint64? }

end Vault

namespace Operation

def toJson (o : Operation) : Json :=
  .ofMembers [("id", .ofText o.id), ("amount", .ofNat o.amount.toNat),
    ("destination", .ofText o.destination)]

def ofJson? (j : Json) : Option Operation := do
  let [some id, some amount, some destination] ← j.fields? ["id", "amount", "destination"] 3 | none
  return {
    id := ← id.string?
    amount := ← amount.uint64?
    destination := ← destination.string? }

end Operation

namespace Ledger

def toJson (l : Ledger) : Json :=
  .ofMembers [("vault", l.vault.toJson),
    ("pending", match l.pending with
      | some op => op.toJson
      | none => .null),
    ("next_sequence", .ofNat l.nextSequence.toNat)]

def ofJson? (j : Json) : Option Ledger := do
  let [some vault, pending, next] ← j.fields? ["vault", "pending", "next_sequence"] 2 | none
  return {
    vault := ← Vault.ofJson? vault
    pending := ← (pending.getD .null).optional? Operation.ofJson?
    nextSequence := ← (next.getD (.ofNat 0)).uint64? }

def text (layout : Json.Layout) (l : Ledger) : String :=
  l.toJson.text layout

def ofBytes? (bytes : List UInt8) : Option Ledger :=
  (Json.ofBytes? bytes).bind ofJson?

end Ledger
end RetirementVault
