import RetirementVault.Statement.Entry

/-!
# The summary of a portfolio

What the purchases add up to. The totals are sums of words and a total that is no word stops the
summary; the profit is a difference of signed words and stops it in the same way. The average price
is a quotient of unbounded numbers, rounded down, and only its last 64 bits are kept.
-/

namespace RetirementVault

/-- What the purchases of a portfolio add up to. -/
structure Summary where
  contributed : Cents
  current : Cents
  sats : Sats
  /-- Profit in cents; a loss is negative. -/
  profit : Int
  /-- Profit in percent of what was contributed. -/
  profitPercent : Binary.Double
  /-- Cents a bitcoin has cost on average. -/
  averagePrice : Cents
  deriving DecidableEq

namespace Summary

open Binary

/-- Profit in percent of a contribution; nothing contributed is no profit. -/
def percentOf (profit : Int) (contributed : Cents) : Double :=
  if 0 < contributed then
    Value.ofInt binary64 profit / Value.ofNat binary64 contributed.toNat
      * Value.ofNat binary64 100
  else Value.zero binary64 false

/-- The price of a bitcoin if some sats cost a contribution; no sats have no price. -/
def averagePriceOf (contributed : Cents) (sats : Sats) : Cents :=
  if 0 < sats then UInt64.ofNat (contributed.toNat * Money.satsPerBitcoin / sats.toNat) else 0

def ofPurchases (purchases : List Purchase) : Except Overflow Summary := do
  let contributed ← Word.sum (purchases.map Purchase.contributed)
  let current ← Word.sum (purchases.map Purchase.current)
  let sats ← Word.sum (purchases.map Purchase.acquired)
  let profit ← Word.signedDifference current contributed
  return {
    contributed, current, sats, profit
    profitPercent := percentOf profit contributed
    averagePrice := averagePriceOf contributed sats }

/-- Whether there is no loss. -/
def isGain (s : Summary) : Bool :=
  decide (0 ≤ s.profit)

/-- Profit in dollars and percent. -/
def profitLabel (s : Summary) : String :=
  Money.dollars s.profit ++ " (" ++ Money.percent s.profitPercent ++ ")"

def holdingsLabel (s : Summary) : String :=
  "₿" ++ Money.bitcoin s.sats

end Summary
end RetirementVault
