import RetirementVault.Json.Field
import RetirementVault.Json.Writer
import RetirementVault.Money
import RetirementVault.Word

/-!
# Entries of a statement

A purchase puts bitcoin into the portfolio, a withdrawal takes some out. Both carry a date that
sorts as text. Their stored form has all six fields, in this order.
-/

namespace RetirementVault

structure Purchase where
  date : String
  time : String
  /-- What was paid. -/
  contributed : Cents
  /-- What a bitcoin cost. -/
  price : Cents
  acquired : Sats
  /-- What the purchase is worth now. -/
  current : Cents
  deriving DecidableEq, Repr

structure Withdrawal where
  id : String
  date : String
  time : String
  amount : Cents
  sats : Sats
  /-- What a bitcoin cost. -/
  price : Cents
  deriving DecidableEq, Repr

namespace Purchase

/-- What a purchase has gained, both amounts read as signed words. -/
def gain (p : Purchase) : Except Overflow Int :=
  Word.signedDifference p.current p.contributed

def fieldNames : List String :=
  ["date", "time", "contributed_cents", "btc_price_cents", "btc_acquired_sats",
    "current_value_cents"]

def toJson (p : Purchase) : Json :=
  .ofMembers (fieldNames.zip [.ofText p.date, .ofText p.time, .ofNat p.contributed.toNat,
    .ofNat p.price.toNat, .ofNat p.acquired.toNat, .ofNat p.current.toNat])

def ofJson? (j : Json) : Option Purchase := do
  let [some date, some time, some contributed, some price, some acquired, some current] ←
    j.fields? fieldNames 6 | none
  return {
    date := ← date.string?
    time := ← time.string?
    contributed := ← contributed.uint64?
    price := ← price.uint64?
    acquired := ← acquired.uint64?
    current := ← current.uint64? }

end Purchase

namespace Withdrawal

def fieldNames : List String :=
  ["id", "date", "time", "amount_cents", "btc_sats", "btc_price_cents"]

def toJson (w : Withdrawal) : Json :=
  .ofMembers (fieldNames.zip [.ofText w.id, .ofText w.date, .ofText w.time,
    .ofNat w.amount.toNat, .ofNat w.sats.toNat, .ofNat w.price.toNat])

def ofJson? (j : Json) : Option Withdrawal := do
  let [some id, some date, some time, some amount, some sats, some price] ←
    j.fields? fieldNames 6 | none
  return {
    id := ← id.string?
    date := ← date.string?
    time := ← time.string?
    amount := ← amount.uint64?
    sats := ← sats.uint64?
    price := ← price.uint64? }

end Withdrawal
end RetirementVault
