import RetirementVault.Binary.Rounding

/-!
# Values of a binary format and their arithmetic

A value is not-a-number, an infinity, or a signed count of units that fits the format; zero has
two signs. Every operation is written the same way: the special cases first, then the exact result
as a quotient of units, handed to `Value.ofUnits`, which rounds it once. So `add`, `mul` and `div`
are correctly rounded by construction, and `lt` is the order of the numbers themselves.
-/

namespace RetirementVault.Binary

/-- A value of a binary format. A finite one is a sign and a count of units. -/
inductive Value (F : Format) where
  | nan
  | infinite (negative : Bool)
  | finite (negative : Bool) (units : Nat) (fits : F.Fits units) (small : units < F.limit)
  deriving DecidableEq

abbrev Single := Value binary32

abbrev Double := Value binary64

/-- A signed whole number, given by sign and size. -/
def signed (negative : Bool) (size : Nat) : Int :=
  if negative then -(size : Int) else size

namespace Value

variable {F : Format}

def zero (F : Format) (negative : Bool) : Value F :=
  .finite negative 0 F.fits_zero (Nat.two_pow_pos _)

instance : Inhabited (Value F) := ⟨zero F false⟩

/-- The nearest value to a quotient of units; past the largest finite value it is infinite. -/
def ofUnits (F : Format) (negative : Bool) (num den : Nat) : Value F :=
  if h : F.roundUnits num den < F.limit then
    .finite negative (F.roundUnits num den) (F.roundUnits_fits num den) h
  else .infinite negative

/-- The nearest value to a quotient of whole numbers. -/
def ofRatio (F : Format) (negative : Bool) (num den : Nat) : Value F :=
  ofUnits F negative (num * 2 ^ F.scale) den

def ofNat (F : Format) (n : Nat) : Value F :=
  ofRatio F false n 1

/-- The nearest value to an integer; zero is positive. -/
def ofInt (F : Format) (n : Int) : Value F :=
  ofRatio F (decide (n < 0)) n.natAbs 1

def isFinite : Value F → Bool
  | .finite .. => true
  | _ => false

def neg : Value F → Value F
  | .nan => .nan
  | .infinite s => .infinite !s
  | .finite s u f l => .finite (!s) u f l

/-- The nearest value to a sum. A sum of zero is positive unless both terms are negative zeros. -/
def add : Value F → Value F → Value F
  | .nan, _ => .nan
  | _, .nan => .nan
  | .infinite s, .infinite t => if s = t then .infinite s else .nan
  | .infinite s, .finite .. => .infinite s
  | .finite .., .infinite t => .infinite t
  | .finite s u _ _, .finite t v _ _ =>
    let sum := signed s u + signed t v
    if sum = 0 then zero F (s && t) else ofUnits F (decide (sum < 0)) sum.natAbs 1

/-- The nearest value to a product; an infinity times zero is not a number. -/
def mul : Value F → Value F → Value F
  | .nan, _ => .nan
  | _, .nan => .nan
  | .infinite s, .infinite t => .infinite (s != t)
  | .infinite s, .finite t v _ _ => if v = 0 then .nan else .infinite (s != t)
  | .finite s u _ _, .infinite t => if u = 0 then .nan else .infinite (s != t)
  | .finite s u _ _, .finite t v _ _ => ofUnits F (s != t) (u * v) (2 ^ F.scale)

/-- The nearest value to a quotient. Dividing by zero gives an infinity, zero by zero is not a
number, and so is one infinity by another. -/
def div : Value F → Value F → Value F
  | .nan, _ => .nan
  | _, .nan => .nan
  | .infinite _, .infinite _ => .nan
  | .infinite s, .finite t _ _ _ => .infinite (s != t)
  | .finite s _ _ _, .infinite t => zero F (s != t)
  | .finite s u _ _, .finite t v _ _ =>
    if v = 0 then if u = 0 then .nan else .infinite (s != t)
    else ofUnits F (s != t) (u * 2 ^ F.scale) v

instance : Neg (Value F) := ⟨neg⟩
instance : Add (Value F) := ⟨add⟩
instance : Mul (Value F) := ⟨mul⟩
instance : Div (Value F) := ⟨div⟩

/-- The nearest value of another format. -/
def convert (G : Format) : Value F → Value G
  | .nan => .nan
  | .infinite s => .infinite s
  | .finite s u _ _ => ofUnits G s (u * 2 ^ G.scale) (2 ^ F.scale)

/-! ## Order -/

/-- Strict order; nothing is below or above not-a-number, and the two zeros are level. -/
def lt : Value F → Value F → Bool
  | .nan, _ => false
  | _, .nan => false
  | .infinite s, .infinite t => s && !t
  | .infinite s, .finite .. => s
  | .finite .., .infinite t => !t
  | .finite s u _ _, .finite t v _ _ => decide (signed s u < signed t v)

/-- Order that lets level values through; not-a-number is level with nothing. -/
def le : Value F → Value F → Bool
  | .nan, _ => false
  | _, .nan => false
  | a, b => !lt b a

/-- The larger of two values, the first of two that are level, and the other one where one is not
a number. -/
def max (a b : Value F) : Value F :=
  if a = .nan then b else if lt a b then b else a

/-- The smaller of two values, the first of two that are level, and the other one where one is not
a number. -/
def min (a b : Value F) : Value F :=
  if a = .nan then b else if lt b a then b else a

theorem max_eq_or (a b : Value F) : a.max b = a ∨ a.max b = b := by
  unfold Value.max
  split
  · exact .inr rfl
  · split
    · exact .inr rfl
    · exact .inl rfl

theorem ofUnits_of_fits {negative : Bool} {units : Nat} (fits : F.Fits units)
    (small : units < F.limit) : ofUnits F negative units 1 = .finite negative units fits small := by
  unfold ofUnits
  simp only [Format.roundUnits_of_fits fits, small, dite_true]

theorem ofUnits_ne_nan (negative : Bool) (num den : Nat) : ofUnits F negative num den ≠ .nan := by
  unfold ofUnits
  split <;> simp

end Value
end RetirementVault.Binary
