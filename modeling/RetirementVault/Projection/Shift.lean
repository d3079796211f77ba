import RetirementVault.Binary.Exponential
import RetirementVault.Json.Tree
import RetirementVault.Projection.Series

/-!
# Pulling a curve earlier

A saver who retires some years earlier has every age of the curve moved down by those years, but
not below the first age of the curve. Every amount is raised: by four percent of a bitcoin a year
at and after the peak, and by less the further it lies before the peak. Where several samples
arrive at one age the largest amount stays.

All arithmetic is that of 32-bit binary values, rounded after each operation.
-/

namespace RetirementVault.Projection

open Binary

/-- What an amount at the peak gains for each year. -/
def boostPerYear : Single :=
  Value.ofRatio binary32 false 4 100

/-- How many years before the peak the gain has fallen by a factor of e. -/
def decayYears : Single :=
  Value.ofNat binary32 8

/-- What an amount gains that lies some years before the peak. -/
def boost (years distance : UInt32) : Single :=
  boostPerYear * Value.ofNat binary32 years.toNat
    * Value.exp (-Value.ofNat binary32 distance.toNat / decayYears)

/-- The difference of two ages, zero if the second is the greater. -/
def ageDifference (a b : UInt32) : UInt32 :=
  if b ≤ a then a - b else 0

/-- The larger amount of two samples, of two that are level the one already held. -/
def higher (held next : Sample) : Sample :=
  if held.btc.lt next.btc then next else held

/-- Puts an amount at an age into samples in strict order of age. At an age that is there already
the larger amount stays. -/
def insertLargest (age : UInt32) (btc : Single) : Series → Series
  | [] => [{ age, btc }]
  | s :: rest =>
    if age < s.age then { age, btc } :: s :: rest
    else if age = s.age then { age, btc := s.btc.max btc } :: rest
    else s :: insertLargest age btc rest

namespace Series

/-- The least age of a series that begins with a sample. -/
def leastAge (first : Sample) (rest : Series) : UInt32 :=
  rest.foldl (fun least s => min least s.age) first.age

/-- The age of the first of the largest amounts. -/
def peakAge (first : Sample) (rest : Series) : UInt32 :=
  (rest.foldl higher first).age

def shiftedAge (least years age : UInt32) : UInt32 :=
  max (ageDifference age years) least

def shiftedBtc (peak years : UInt32) (s : Sample) : Single :=
  s.btc + boost years (ageDifference peak s.age)

/-- The series pulled earlier by some years. By no years it stays as it is, order and all. -/
def shift (s : Series) (years : UInt32) : Series :=
  match s with
  | [] => []
  | first :: rest =>
    if years = 0 then s
    else
      let least := leastAge first rest
      let peak := peakAge first rest
      s.foldl
        (fun out p => insertLargest (shiftedAge least years p.age) (shiftedBtc peak years p) out) []

/-- Reads a series from the bytes of its text, pulls it earlier and writes it out again. -/
def shiftText? (years : UInt32) (bytes : List UInt8) : Option String :=
  ((Json.ofBytes? bytes).bind ofJson?).map fun s => (toJson (s.shift years)).text .pretty

end Series
end RetirementVault.Projection
