import RetirementVault.Text.Blank
import RetirementVault.Text.Numeral

/-!
# The adjustment of a simulation

A simulation adds to the monthly amount or takes away from it. The field it is typed into is
cleaned as one types; what stands there is read as a signed 64-bit number, and anything else as no
adjustment.
-/

namespace RetirementVault.Projection

/-- Years by which a simulation moves the retirement. -/
def horizonYears : Nat := 4

/-- What is typed, cleaned: digits stay, and a minus that comes first. -/
def sanitize : List Char → List Char
  | [] => []
  | c :: rest =>
    if c = '-' ∨ c.isDigit then c :: rest.filter Char.isDigit else rest.filter Char.isDigit

/-- Reads an adjustment, with blanks around it allowed. -/
def parseAdjustment (text : String) : Int :=
  (Text.readInt64? (Text.trim text)).getD 0

/-- How an adjustment moves the retirement. -/
def horizonLabel (adjustment : Int) : String :=
  if 0 < adjustment then "-" ++ Text.decimal horizonYears ++ " years"
  else if adjustment < 0 then "+" ++ Text.decimal horizonYears ++ " years"
  else "0 years"

end RetirementVault.Projection
