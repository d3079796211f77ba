import RetirementVault.Binary.Value
import RetirementVault.Text.Numeral

/-!
# Amounts of money as text

Sats, bitcoin, dollars and percentages the way the wallet shows them. All of them group the digits
of their whole part in threes; a sign stands in front of everything else, the currency symbol
included.
-/

namespace RetirementVault

abbrev Sats := UInt64

abbrev Cents := UInt64

namespace Money

def satsPerBitcoin : Nat := 100000000

/-- The size of a number, `1,234`. -/
def magnitude (value : Int) : String :=
  Text.grouped value.natAbs

/-- A number with its sign, plus included; zero has none. -/
def withSign (value : Int) : String :=
  if 0 < value then "+" ++ magnitude value
  else if value < 0 then "-" ++ magnitude value
  else "0"

/-- An amount in sats with its unit. -/
def satsLabel (value : Sats) : String :=
  Text.grouped value.toNat ++ " sats"

/-- An amount in cents as dollars with two decimals. -/
def dollars (cents : Int) : String :=
  (if cents < 0 then "-" else "") ++ "$" ++ Text.grouped (cents.natAbs / 100) ++ "."
    ++ Text.padded 2 (cents.natAbs % 100)

/-- An amount in sats as bitcoin with eight decimals. -/
def bitcoin (value : Sats) : String :=
  Text.grouped (value.toNat / satsPerBitcoin) ++ "."
    ++ Text.padded 8 (value.toNat % satsPerBitcoin)

/-- The nearest number of hundredths to a count of 64-bit units; a half goes to the even one. -/
def hundredths (units : Nat) : Nat :=
  Binary.roundHalfEven (100 * units) (2 ^ Binary.binary64.scale)

/-- A percentage with two decimals. What rounds to zero has no sign. -/
def percent : Binary.Double → String
  | .nan => "NaN%"
  | .infinite negative => if negative then "-inf%" else "inf%"
  | .finite negative units _ _ =>
    let h := hundredths units
    (if negative ∧ h ≠ 0 then "-" else "") ++ Text.grouped (h / 100) ++ "."
      ++ Text.padded 2 (h % 100) ++ "%"

end Money
end RetirementVault
