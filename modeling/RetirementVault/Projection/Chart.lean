import RetirementVault.Json.Tree
import RetirementVault.Projection.Series

/-!
# The chart of a retirement

The five series a chart is drawn from and the curves drawn. The history of investments is drawn as
it is; the expected curve and the simulated one continue from its last point, so there is no chart
without a history. `Curves.bounds` says how far the axes have to reach.
-/

namespace RetirementVault.Projection

open Binary

/-- The series of a retirement chart. -/
structure Plan where
  currentAge : UInt32
  lifeExpectancy : UInt32
  base : Series
  expected : Series
  /-- What is simulated when the saver adds to the amount. -/
  added : Series
  /-- What is simulated when the saver takes from the amount. -/
  removed : Series
  /-- The history of investments. -/
  history : Series
  deriving DecidableEq

structure Curves where
  base : Curve
  actual : Curve
  investment : Curve
  simulation : Option Curve
  deriving DecidableEq

/-- How far the axes of a chart reach. -/
structure Bounds where
  minAge : Single
  maxAge : Single
  maxBtc : Single
  deriving DecidableEq

/-- The room that is left above the highest point, as a factor. -/
def headroom : Single :=
  Value.ofRatio binary32 false 11 10

namespace Plan

def fieldNames : List String :=
  ["currentAge", "lifeExpectancy", "baseProjection", "expectedProjection", "addAmountSeed",
    "removeAmountSeed", "investmentDashboard"]

def toJson (p : Plan) : Json :=
  .ofMembers (fieldNames.zip [.ofNat p.currentAge.toNat, .ofNat p.lifeExpectancy.toNat,
    p.base.toJson, p.expected.toJson, p.added.toJson, p.removed.toJson, p.history.toJson])

def ofJson? (j : Json) : Option Plan := do
  let [some currentAge, some lifeExpectancy, some base, some expected, some added, some removed,
    some history] ← j.fields? fieldNames 7 | none
  return {
    currentAge := ← currentAge.uint32?
    lifeExpectancy := ← lifeExpectancy.uint32?
    base := ← Series.ofJson? base
    expected := ← Series.ofJson? expected
    added := ← Series.ofJson? added
    removed := ← Series.ofJson? removed
    history := ← Series.ofJson? history }

/-- The series an adjustment simulates. -/
def simulated (p : Plan) (adjustment : Int) : Option Series :=
  if 0 < adjustment then some p.added
  else if adjustment < 0 then some p.removed
  else none

def curves (p : Plan) (adjustment : Int) : Option Curves :=
  p.history.curve.getLast?.map fun anchor =>
    { base := p.base.curve
      actual := p.expected.curve.continueFrom anchor
      investment := p.history.curve
      simulation := (p.simulated adjustment).map fun s => s.curve.continueFrom anchor }

end Plan

/-- Brings a list to one value, from the left; none if there is nothing. -/
def reduce? {α : Type} (f : α → α → α) : List α → Option α
  | [] => none
  | a :: as => some (as.foldl f a)

namespace Curves

/-- The curves that are drawn. -/
def all (c : Curves) : List Curve :=
  [c.base, c.actual, c.investment] ++ c.simulation.toList

/-- The bounds of the axes: from the least first age to the greatest last age, and some room above
the largest amount. -/
def bounds (c : Curves) : Option Bounds := do
  let minAge ← reduce? Value.min (c.all.filterMap fun s => s.head?.map Point.x)
  let maxAge ← reduce? Value.max (c.all.filterMap fun s => s.getLast?.map Point.x)
  let maxBtc ← reduce? Value.max (c.all.flatten.map Point.y)
  return { minAge, maxAge, maxBtc := maxBtc * headroom }

end Curves
end RetirementVault.Projection
