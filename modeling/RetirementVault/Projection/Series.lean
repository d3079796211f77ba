import RetirementVault.Binary.Value
import RetirementVault.Json.Field
import RetirementVault.Json.Writer

/-!
# Series and curves

A series is a list of amounts of bitcoin at ages, in any order and with ages repeated. A curve is
what is drawn of it: points along the age axis. `curve` sorts by age and keeps the order of equal
ages; `continueFrom` lets a curve begin at the end of another.
-/

namespace RetirementVault.Projection

open Binary

/-- An amount of bitcoin at an age. -/
structure Sample where
  age : UInt32
  btc : Single
  deriving DecidableEq

/-- A point of a chart: an age and an amount. -/
structure Point where
  x : Single
  y : Single
  deriving DecidableEq

abbrev Series := List Sample

abbrev Curve := List Point

namespace Sample

def toJson (s : Sample) : Json :=
  .ofMembers [("age", .ofNat s.age.toNat), ("btc", .ofSingle s.btc)]

def ofJson? (j : Json) : Option Sample := do
  let [some age, some btc] ← j.fields? ["age", "btc"] 2 | none
  return { age := ← age.uint32?, btc := ← btc.single? }

def point (s : Sample) : Point where
  x := Value.ofNat binary32 s.age.toNat
  y := s.btc

end Sample

namespace Point

def toJson (p : Point) : Json :=
  .ofMembers [("x", .ofSingle p.x), ("y", .ofSingle p.y)]

def ofJson? (j : Json) : Option Point := do
  let [some x, some y] ← j.fields? ["x", "y"] 2 | none
  return { x := ← x.single?, y := ← y.single? }

end Point

namespace Series

def toJson (s : Series) : Json :=
  .arr (s.map Sample.toJson)

def ofJson? : Json → Option Series :=
  Json.list? Sample.ofJson?

/-- The series in order of age, samples of one age in the order they had. -/
def sorted (s : Series) : Series :=
  s.mergeSort fun a b => decide (a.age ≤ b.age)

def curve (s : Series) : Curve :=
  (sorted s).map Sample.point

end Series

namespace Curve

/-- The curve from an anchor on: the anchor itself and the points that are not before it. -/
def continueFrom (c : Curve) (anchor : Point) : Curve :=
  anchor :: c.filter fun p => anchor.x.le p.x

end Curve

end RetirementVault.Projection
