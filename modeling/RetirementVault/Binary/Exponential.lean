import RetirementVault.Binary.Value

/-!
# The exponential function

`exp` is computed from the power series of `e ^ a` for the size `a` of its argument, summed in
whole numbers of `2 ^ -workingBits`, and one rounding at the end: of the sum for a positive
argument, of its reciprocal for a negative one.

Nothing fixes the last bits of an exponential function: those of different machines differ there,
and this one is a choice among them. The sum starts at one and only grows, so at a negative argument
the result lies between zero and one, and at zero of either sign it is exactly one. Those two facts
are all that is used of it elsewhere, and they are true of the others as well.
-/

namespace RetirementVault.Binary.Value

variable {F : Format}

/-- Bits after the point that the series is summed with: far more than a significand has. -/
def workingBits (F : Format) : Nat :=
  4 * F.precision + 32

/-- A size from which on the exponential has overflowed, and its reciprocal is less than half the
unit. -/
def expCutoff (F : Format) : Nat :=
  F.scale + 2

/-- The sum of so many terms of the series of `e ^ (num / den)`, from the term number `k` on, whose
rounded value is given. -/
def expSum (num den : Nat) : (terms k term : Nat) → Nat
  | 0, _, _ => 0
  | terms + 1, k, term => term + expSum num den terms (k + 1) (term * num / (den * (k + 1)))

/-- The series of `e ^ (num / den)` in units of `2 ^ -workingBits`. Four times as many terms as the
argument is large bring the term below one unit. -/
def expSeries (F : Format) (num den : Nat) : Nat :=
  expSum num den (4 * expCutoff F) 0 (2 ^ workingBits F)

def exp : Value F → Value F
  | .nan => .nan
  | .infinite negative => if negative then zero F false else .infinite false
  | .finite negative u _ _ =>
    if expCutoff F * 2 ^ F.scale ≤ u then
      if negative then zero F false else .infinite false
    else if negative then ofRatio F false (2 ^ workingBits F) (expSeries F u (2 ^ F.scale))
    else ofRatio F false (expSeries F u (2 ^ F.scale)) (2 ^ workingBits F)

/-! ## The sum -/

theorem expSum_zero (den terms k : Nat) : expSum 0 den terms k 0 = 0 := by
  induction terms generalizing k with
  | zero => rfl
  | succ terms ih => simp [expSum, ih]

/-- Nothing is added to one at the argument zero. -/
theorem expSeries_zero (F : Format) (den : Nat) : expSeries F 0 den = 2 ^ workingBits F := by
  have h : 4 * expCutoff F = 4 * expCutoff F - 1 + 1 := by
    unfold expCutoff
    omega
  unfold expSeries
  rw [h]
  simp [expSum, expSum_zero]

theorem le_expSeries (F : Format) (num den : Nat) : 2 ^ workingBits F ≤ expSeries F num den := by
  have h : 4 * expCutoff F = 4 * expCutoff F - 1 + 1 := by
    unfold expCutoff
    omega
  unfold expSeries
  rw [h, expSum]
  exact Nat.le_add_right _ _

end RetirementVault.Binary.Value
