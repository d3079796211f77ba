import RetirementVault.Binary.Value

/-!
# Interchange encodings

The encoding of a value as a whole number: a sign, an exponent field, a fraction field. A value
and its encoding determine each other except for not-a-number, which has many encodings; `code?`
prefers none of them.
-/

namespace RetirementVault.Binary.Value

variable {F : Format}

/-- One more than the largest content of the fraction field. -/
def fractionField (F : Format) : Nat :=
  2 ^ (F.precision - 1)

/-- One more than the largest content of the exponent field. -/
def exponentField (F : Format) : Nat :=
  F.range + 3

def ofCode (F : Format) (code : Nat) : Value F :=
  let fraction := code % fractionField F
  let exponent := code / fractionField F % exponentField F
  let negative := decide (code / (fractionField F * exponentField F) % 2 = 1)
  if exponent + 1 = exponentField F then
    if fraction = 0 then .infinite negative else .nan
  else if exponent = 0 then ofUnits F negative fraction 1
  else ofUnits F negative ((fractionField F + fraction) * 2 ^ (exponent - 1)) 1

/-- The encoding of a value; none for not-a-number.

A count of units below a full significand is its own encoding. Above, the spare bits are the
exponent field less one, and the significand's top bit is the one that carries into it. -/
def code? : Value F → Option Nat
  | .nan => none
  | .infinite s => some (signCode s + (exponentField F - 1) * fractionField F)
  | .finite s u _ _ =>
    some (signCode s + F.spareBits u * fractionField F + u / 2 ^ F.spareBits u)
where
  /-- The sign bit in its place. -/
  signCode (negative : Bool) : Nat :=
    if negative then fractionField F * exponentField F else 0

end RetirementVault.Binary.Value
