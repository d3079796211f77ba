import RetirementVault.Json.Basic
import RetirementVault.Binary.Shortest

/-!
# Numbers in JSON

How a number as written becomes a whole number or a binary value, and how a binary value is
written.

Reading to 64 bits is not correctly rounded, and that is the rule: the digits are taken in as long
as they spell a 64-bit word, later ones count only for the place, and the word is multiplied or
divided by one power of ten. A number that leaves the finite range is refused. A 32-bit value is
the 64-bit one rounded again, except that a whole number in the range of the machine words goes
there directly.
-/

namespace RetirementVault.Json

open Binary

namespace Numeral

/-- The whole number written, if there is no sign, point or power of ten. -/
def natural? (n : Numeral) : Option Nat :=
  if n.negative = false ∧ n.fraction = [] ∧ n.exponent = none then
    some (Nat.ofDigitChars 10 n.whole 0)
  else none

/-- Takes in digits behind a number as long as it stays below `2 ^ 64`, and says what is left. -/
def absorb : Nat → List Char → Nat × List Char
  | n, [] => (n, [])
  | n, d :: ds =>
    if 10 * n + (d.toNat - 48) < UInt64.size then absorb (10 * n + (d.toNat - 48)) ds
    else (n, d :: ds)

def powerOfTen (n : Nat) : Double :=
  Value.ofNat binary64 (10 ^ n)

/-- The largest power of ten that is finite. -/
def maxPower : Nat := 308

/-- A value times a power of ten; none if it is too large. A quotient by more than `maxPower` is
taken in two steps, and nothing is left of a word after two full ones. -/
def scale? (f : Double) (power : Int) : Option Double :=
  if 0 ≤ power then
    if power ≤ maxPower then
      let product := f * powerOfTen power.toNat
      if product.isFinite then some product else none
    else if f = Value.zero binary64 false then some f
    else none
  else
    let n := power.natAbs
    if n ≤ maxPower then some (f / powerOfTen n)
    else if n ≤ 2 * maxPower then some (f / powerOfTen maxPower / powerOfTen (n - maxPower))
    else some (Value.zero binary64 false)

def double? (n : Numeral) : Option Double :=
  let (word, wholeLeft) := absorb 0 n.whole
  let (word, fractionLeft) := absorb word n.fraction
  let absorbed := n.fraction.length - fractionLeft.length
  let power := (wholeLeft.length : Int) - absorbed + n.exponent.getD 0
  (scale? (Value.ofNat binary64 word) power).map fun f => if n.negative then -f else f

def single? (n : Numeral) : Option Single :=
  let size := Nat.ofDigitChars 10 n.whole 0
  if n.fraction = [] ∧ n.exponent = none ∧ n.negative = false ∧ size < UInt64.size then
    some (Value.ofNat binary32 size)
  else if n.fraction = [] ∧ n.exponent = none ∧ n.negative = true ∧ 0 < size ∧
      Word.IsSigned (-size) then
    some (-Value.ofNat binary32 size)
  else n.double?.map (Value.convert binary32)

def ofNat (n : Nat) : Numeral where
  negative := false
  whole := Text.digits n
  fraction := []
  exponent := none

/-! ## Writing a binary value -/

/-- Which decimals are written without a power of ten, by the place of the first digit. -/
structure Plain where
  least : Int
  greatest : Int

/-- From a millionth to below ten million million a number is written out. -/
def plain : Plain where
  least := -6
  greatest := 12

/-- A decimal written out has at least one digit on either side of the point; one with a power of
ten has one digit before the point and no idle zero after it. -/
def ofDecimal (negative : Bool) (d : Decimal) : Numeral :=
  if plain.least ≤ d.exponent ∧ d.exponent ≤ plain.greatest then
    if d.exponent < 0 then
      { negative
        whole := ['0']
        fraction := List.replicate (d.exponent.natAbs - 1) '0' ++ d.digits
        exponent := none }
    else
      let before := d.exponent.toNat + 1
      let after := d.digits.drop before
      { negative
        whole := d.digits.take before ++ List.replicate (before - d.digits.length) '0'
        fraction := if after = [] then ['0'] else after
        exponent := none }
  else
    { negative
      whole := d.digits.take 1
      fraction := d.digits.drop 1
      exponent := some d.exponent }

end Numeral

def ofNat (n : Nat) : Json :=
  .num (.ofNat n)

/-- A 32-bit value, by its shortest decimal; an infinity and not-a-number become null. -/
def ofSingle : Single → Json
  | .finite negative units _ _ =>
    if units = 0 then
      .num { negative, whole := ['0'], fraction := ['0'], exponent := none }
    else .num (.ofDecimal negative (Value.shortest binary32 units))
  | _ => .null

end RetirementVault.Json
