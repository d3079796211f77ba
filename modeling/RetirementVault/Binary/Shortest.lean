import RetirementVault.Binary.Value
import RetirementVault.Text.Numeral

/-!
# The fewest digits that read back

A finite value other than zero is written with as few significant digits as still read back as the
same value, and of those decimals the one nearest to it; of two equally near ones, the one with an
even last digit.

The reals that round to a value form an interval around it, with its ends when the significand is
even. The search goes through the grids of one, two, three, … digits and looks at the two
neighbours of the value on each. If any point of a grid lies in the interval then one of those two
does, so the first grid with a hit has the least number of digits.
-/

namespace RetirementVault.Binary

/-- A positive decimal `d.ddd * 10 ^ exponent`, by its significant digits. -/
structure Decimal where
  /-- Significant digits, the first and the last of them not zero. -/
  digits : List Char
  /-- The place of the first digit. -/
  exponent : Int
  deriving DecidableEq, Repr

namespace Decimal

/-- The decimal `n * 10 ^ place`, for `n` positive. -/
def ofNat (n : Nat) (place : Int) : Decimal where
  digits := ((Text.digits n).reverse.dropWhile (· = '0')).reverse
  exponent := place + ((Text.digits n).length : Int) - 1

end Decimal

namespace Value

/-- The reals that round to a count of units, in quarters of the unit. -/
structure Span where
  /-- Where the interval starts. -/
  low : Nat
  /-- Where it stops. -/
  high : Nat
  /-- Whether its ends belong to it. -/
  closed : Bool

/-- The interval around a count of units. Below the least significand of a binade the neighbour is
half as far away as above it. -/
def span (F : Format) (units : Nat) : Span :=
  let gap := 2 ^ F.spareBits units
  let below := if 1 < gap ∧ units = 2 ^ units.log2 then gap / 2 else gap
  { low := 4 * units - 2 * below
    high := 4 * units + 2 * gap
    closed := decide (units / gap % 2 = 0) }

def Span.has (s : Span) (num den : Nat) : Bool :=
  if s.closed then decide (s.low * den ≤ num ∧ num ≤ s.high * den)
  else decide (s.low * den < num ∧ num < s.high * den)

/-- The place of the first significant digit of a positive count of units. As many decimals as the
unit has binary places leave a whole number. -/
def leadingPlace (F : Format) (units : Nat) : Int :=
  ((Text.digits (units * 10 ^ F.scale / 2 ^ F.scale)).length : Int) - 1 - F.scale

/-- The best decimal with the last digit at a given place, if one reads back. -/
def onGrid? (F : Format) (units : Nat) (place : Int) : Option Decimal :=
  -- `n * 10 ^ place` is `n * num / den` quarter units
  let num := 4 * 2 ^ F.scale * 10 ^ place.toNat
  let den := 10 ^ (-place).toNat
  let s := span F units
  let exact := 4 * units * den
  let n := exact / num
  match s.has (n * num) den, s.has ((n + 1) * num) den with
  | true, true => some (.ofNat (roundHalfEven exact num) place)
  | true, false => some (.ofNat n place)
  | false, true => some (.ofNat (n + 1) place)
  | false, false => none

/-- The shortest decimal for a positive count of units. As many digits as the significand has bits
always suffice. -/
def shortest (F : Format) (units : Nat) : Decimal :=
  let lead := leadingPlace F units
  match (List.range F.precision).findSome? fun (n : Nat) => onGrid? F units (lead - n) with
  | some d => d
  | none => .ofNat (4 * units) 0

end Value
end RetirementVault.Binary
